import JourneyMachine.Proofs.Heap.Marking

/-! The operations of a heap and what holds between them: headers agree with objects, no cell is
marked, no free slot lies behind the cursor, and no cell has a number that was not given out. The
second makes the marks of a collection those of its own roots, the third makes an exhausted arena a
full one, and the last makes the number of an allocation a new one. -/

namespace JourneyMachine

namespace Arena

/-- A sweep keeps the marked cells, without their marks. -/
theorem cellAt_sweep {slots : Array Slot} (paired : Paired slots) (h : Handle) :
    cellAt (slots.map Slot.sweep) h =
      (cellAt slots h).bind fun c => if c.marked then some c.unmark else none := by
  simp only [cellAt, Array.getElem?_map]
  cases there : slots[h.slot]? with
  | none => rfl
  | some slot => exact (paired _ slot there).sweep_cell?

theorem Paired.sweep {slots : Array Slot} (paired : Paired slots) :
    Paired (slots.map Slot.sweep) := by
  intro i slot there
  rw [Array.getElem?_map, Option.map_eq_some_iff] at there
  obtain ⟨before, there, rfl⟩ := there
  exact (paired i before there).sweep

theorem Paired.edit {slots : Array Slot} (paired : Paired slots) (i : Nat) (f : Object → Object) :
    Paired (slots.modify i (·.edit f)) := by
  intro k slot there
  rw [Array.getElem?_modify] at there
  split at there
  · obtain ⟨before, found, rfl⟩ := Option.map_eq_some_iff.mp there
    exact (paired k before found).edit f
  · exact paired k slot there

theorem paired_empty (capacity : Nat) : Paired (empty capacity).slots := by
  intro i slot there
  simp only [empty, Array.getElem?_replicate] at there
  split at there
  · cases there
    exact Slot.paired_free 0
  · contradiction

theorem cell?_empty (capacity : Nat) (h : Handle) : (empty capacity).cell? h = none := by
  simp only [cell?, cellAt, empty, Array.getElem?_replicate]
  split <;> rfl

/-- A slot in use holds a cell, and a free one does not. -/
theorem Paired.inUse_eq {slots : Array Slot} (paired : Paired slots) {h : Handle} {slot : Slot}
    (there : slots[h.slot]? = some slot) : slot.header.inUse = (cellAt slots h).isSome := by
  rw [(paired _ slot there).inUse_eq, cellAt, there, Option.bind_some]

theorem Paired.header?_of_cell {a : Arena} (paired : Paired a.slots) {h : Handle} {c : Cell}
    (found : a.cell? h = some c) : a.header? h = some ⟨true, c.marked, c.genus⟩ := by
  obtain ⟨slot, there, seen⟩ := cellAt_eq_some.mp found
  have inUse : slot.header.inUse = true := by rw [(paired _ slot there).inUse_eq, seen]; rfl
  obtain ⟨_, _, rfl⟩ := Option.map_eq_some_iff.mp seen
  simp [header?, there, ← inUse]

theorem Paired.header?_of_free {a : Arena} (paired : Paired a.slots) {h : Handle}
    (inside : h.slot < a.capacity) (free : a.cell? h = none) :
    a.header? h = some ⟨false, false, .ni⟩ := by
  have there : a.slots[h.slot]? = some a.slots[h.slot] := Array.getElem?_eq_getElem inside
  have empty : a.slots[h.slot].object = none := by
    simpa [cell?, cellAt, there, Slot.cell?] using free
  simp [header?, there, (paired _ _ there).free empty]

/-- The search for a free slot skips only slots in use. -/
theorem nextFree?_some {slots : Array Slot} {i j : Nat} (found : nextFree? slots i = some j) :
    i ≤ j ∧ (∃ slot, slots[j]? = some slot ∧ slot.header.inUse = false) ∧
      ∀ k, i ≤ k → k < j → ∃ slot, slots[k]? = some slot ∧ slot.header.inUse = true := by
  induction i using nextFree?.induct slots with
  | case1 i inside used ih =>
    rw [nextFree?, dif_pos inside, if_pos used] at found
    obtain ⟨low, free, between⟩ := ih found
    refine ⟨by omega, free, fun k above below => ?_⟩
    rcases Nat.eq_or_lt_of_le above with rfl | above
    · exact ⟨slots[i], Array.getElem?_eq_getElem inside, used⟩
    · exact between k above below
  | case2 i inside free =>
    rw [nextFree?, dif_pos inside, if_neg free] at found
    cases Option.some.inj found
    exact ⟨Nat.le_refl _, ⟨slots[j], Array.getElem?_eq_getElem inside, by simpa using free⟩,
      fun k low high => absurd high (by omega)⟩
  | case3 i outside =>
    rw [nextFree?, dif_neg outside] at found
    contradiction

theorem nextFree?_none {slots : Array Slot} {i : Nat} (found : nextFree? slots i = none) :
    ∀ k, i ≤ k → k < slots.size → ∃ slot, slots[k]? = some slot ∧ slot.header.inUse = true := by
  induction i using nextFree?.induct slots with
  | case1 i inside used ih =>
    rw [nextFree?, dif_pos inside, if_pos used] at found
    intro k above below
    rcases Nat.eq_or_lt_of_le above with rfl | above
    · exact ⟨slots[i], Array.getElem?_eq_getElem inside, used⟩
    · exact ih found k above below
  | case2 i inside free =>
    rw [nextFree?, dif_pos inside, if_neg free] at found
    contradiction
  | case3 i outside =>
    intro k above below
    omega

end Arena

namespace Heap

open Arena (cellAt cellAt_set)

/-- What can be done with a heap from outside. An edit may put any object in the place of
another. -/
inductive Operation where
  | allocate (object : Object) (roots : List Handle)
  | collect (roots : List Handle)
  | edit (h : Handle) (f : Object → Object)
  | teardown

def perform (heap : Heap) : Operation → Heap
  | .allocate object roots => (heap.allocate object roots).2
  | .collect roots => (heap.collect roots).2
  | .edit h f => heap.modify h f
  | .teardown => heap.teardown

/-- The heaps that operations lead to from an empty one. -/
def Reached (heap : Heap) : Prop :=
  ∃ (capacity : Nat) (operations : List Operation),
    operations.foldl perform (empty capacity) = heap

/-- What holds between operations. -/
structure Tidy (heap : Heap) : Prop where
  paired : Arena.Paired heap.arena.slots
  unmarked : ∀ h c, heap.arena.cell? h = some c → c.marked = false
  packed : ∀ i < heap.arena.cursor, ∃ o, heap.get? ⟨i⟩ = some o
  born : ∀ h c, heap.arena.cell? h = some c → c.born < heap.arena.births

abbrev Reachable (heap : Heap) (roots : List Handle) (h : Handle) : Prop :=
  heap.arena.Reachable roots h

def Full (heap : Heap) : Prop := ∀ i < heap.capacity, ∃ o, heap.get? ⟨i⟩ = some o

def FirstFree (heap : Heap) (h : Handle) : Prop :=
  h.slot < heap.capacity ∧ heap.get? h = none ∧ ∀ i < h.slot, ∃ o, heap.get? ⟨i⟩ = some o

def filled (heap : Heap) (h : Handle) (object : Object) : Heap :=
  { heap with
    arena :=
      { slots := heap.arena.slots.setIfInBounds h.slot (.holding object heap.arena.births)
        cursor := h.slot + 1
        live := heap.arena.live + 1
        births := heap.arena.births + 1 } }

theorem get?_eq_some {heap : Heap} {h : Handle} {o : Object} :
    heap.get? h = some o ↔ ∃ c, heap.arena.cell? h = some c ∧ c.object = o := by
  simp [Heap.get?, Arena.get?_eq_map]

theorem get?_eq_none {heap : Heap} {h : Handle} :
    heap.get? h = none ↔ heap.arena.cell? h = none := by
  simp [Heap.get?, Arena.get?_eq_map]

theorem lt_capacity {heap : Heap} {h : Handle} {o : Object} (used : heap.get? h = some o) :
    h.slot < heap.capacity := by
  obtain ⟨c, found, _⟩ := (get?_eq_some).mp used
  exact Arena.cellAt_lt found

@[simp] theorem collect_capacity (heap : Heap) (roots : List Handle) :
    (heap.collect roots).2.capacity = heap.capacity := by
  have marking : (Arena.markSlots heap.arena.slots roots).size = heap.arena.slots.size :=
    Arena.markSlots_invariant (P := fun s => s.1.size = heap.arena.slots.size)
      (fun s same => by
        obtain ⟨slots, work⟩ := s
        cases work with
        | nil => exact same
        | cons h work =>
          simp only [Arena.markRound]
          repeat' split
          all_goals simpa using same) rfl
  simp [collect, capacity, Arena.capacity, Arena.sweep, Arena.mark, Arena.rewind, marking]

/-- A collection keeps the cells that the roots lead to as they are. -/
theorem collect_kept {heap : Heap} (tidy : heap.Tidy) {roots : List Handle} {h : Handle}
    (reachable : heap.Reachable roots h) :
    (heap.collect roots).2.arena.cell? h = heap.arena.cell? h := by
  have search := Arena.mark_searched tidy.paired tidy.unmarked roots
  obtain ⟨o, used⟩ := reachable.inUse
  obtain ⟨c, found, _⟩ := (get?_eq_some).mp used
  have before := search.cells h
  change cellAt ((heap.arena.mark roots).slots.map Slot.sweep) h = _
  rw [Arena.cellAt_sweep search.paired]
  cases look : cellAt (heap.arena.mark roots).slots h with
  | none => simp [look, found] at before
  | some d =>
    have marked := (search.exact look).mpr reachable
    rw [look] at before
    simpa [marked] using before

/-- A collection frees every other slot. -/
theorem collect_freed {heap : Heap} (tidy : heap.Tidy) {roots : List Handle} {h : Handle}
    (lost : ¬ heap.Reachable roots h) : (heap.collect roots).2.arena.cell? h = none := by
  have search := Arena.mark_searched tidy.paired tidy.unmarked roots
  change cellAt ((heap.arena.mark roots).slots.map Slot.sweep) h = _
  rw [Arena.cellAt_sweep search.paired]
  cases look : cellAt (heap.arena.mark roots).slots h with
  | none => rfl
  | some d =>
    have clear : ¬ d.marked = true := fun marked => lost ((search.exact look).mp marked)
    simp [clear]

theorem cell?_filled {heap : Heap} {h : Handle} (room : h.slot < heap.capacity) (object : Object)
    (k : Handle) :
    (heap.filled h object).arena.cell? k =
      if k = h then some { genus := object.genus, object, born := heap.arena.births }
      else heap.arena.cell? k :=
  cellAt_set room _ k

theorem cell?_modify (heap : Heap) (h k : Handle) (f : Object → Object) :
    (heap.modify h f).arena.cell? k =
      if k = h then (heap.arena.cell? h).map fun c => { c with object := f c.object }
      else heap.arena.cell? k := by
  simp only [modify, Arena.modify, Arena.cell?, cellAt, Array.getElem?_modify]
  by_cases same : k = h
  · subst same
    cases heap.arena.slots[k.slot]? with
    | none => simp
    | some slot => simpa using slot.edit_cell? f
  · have other : h.slot ≠ k.slot := fun equal => same (by cases k; cases h; simp_all)
    simp [other, same]

theorem tidy_empty (capacity : Nat) : (empty capacity).Tidy where
  paired := Arena.paired_empty capacity
  unmarked h c found := by cases (Arena.cell?_empty capacity h).symm.trans found
  packed i below := absurd below (Nat.not_lt_zero i)
  born h c found := by cases (Arena.cell?_empty capacity h).symm.trans found

theorem cell?_of_collect {heap : Heap} (tidy : heap.Tidy) {roots : List Handle} {h : Handle}
    {c : Cell} (found : (heap.collect roots).2.arena.cell? h = some c) :
    heap.arena.cell? h = some c := by
  by_cases reachable : heap.Reachable roots h
  · rw [← collect_kept tidy reachable, found]
  · rw [collect_freed tidy reachable] at found
    contradiction

theorem Tidy.collect {heap : Heap} (tidy : heap.Tidy) (roots : List Handle) :
    (heap.collect roots).2.Tidy where
  paired := (Arena.mark_searched tidy.paired tidy.unmarked roots).paired.sweep
  unmarked h c found := tidy.unmarked h c (cell?_of_collect tidy found)
  packed i below := absurd below (Nat.not_lt_zero i)
  born h c found := tidy.born h c (cell?_of_collect tidy found)

/-- A slot whose header says so is in use. -/
theorem Tidy.used {heap : Heap} (tidy : heap.Tidy) {i : Nat} {slot : Slot}
    (there : heap.arena.slots[i]? = some slot) (inUse : slot.header.inUse = true) :
    ∃ o, heap.get? ⟨i⟩ = some o := by
  rw [tidy.paired.inUse_eq (h := ⟨i⟩) there, Option.isSome_iff_exists] at inUse
  obtain ⟨c, found⟩ := inUse
  exact ⟨c.object, (get?_eq_some).mpr ⟨c, found, rfl⟩⟩

/-- Every slot behind the cursor is in use, so the first free one from there is the first of all. -/
theorem Tidy.firstFree {heap : Heap} (tidy : heap.Tidy) {i : Nat}
    (found : Arena.nextFree? heap.arena.slots heap.arena.cursor = some i) :
    heap.FirstFree ⟨i⟩ := by
  obtain ⟨_, ⟨slot, there, free⟩, between⟩ := Arena.nextFree?_some found
  refine ⟨(Array.getElem?_eq_some_iff.mp there).1, ?_, fun k below => ?_⟩
  · rw [tidy.paired.inUse_eq (h := ⟨i⟩) there] at free
    exact (get?_eq_none).mpr (Option.isNone_iff_eq_none.mp (Option.isSome_eq_false_iff.mp free))
  · by_cases behind : k < heap.arena.cursor
    · exact tidy.packed k behind
    · obtain ⟨other, same, inUse⟩ := between k (by omega) below
      exact tidy.used same inUse

theorem Tidy.full {heap : Heap} (tidy : heap.Tidy)
    (found : Arena.nextFree? heap.arena.slots heap.arena.cursor = none) : heap.Full := by
  intro k inside
  by_cases behind : k < heap.arena.cursor
  · exact tidy.packed k behind
  · obtain ⟨slot, there, inUse⟩ := Arena.nextFree?_none found k (by omega) inside
    exact tidy.used there inUse

/-- An allocation takes the first free slot, of the heap as it is or else of the collected one. -/
theorem allocate_inv {heap : Heap} (tidy : heap.Tidy) (object : Object) (roots : List Handle) :
    (∃ h, heap.FirstFree h ∧ heap.allocate object roots = (.ok h, heap.filled h object)) ∨
    (heap.Full ∧ ∃ after, after = (heap.collect (roots ++ object.children)).2 ∧
      ((∃ h, after.FirstFree h ∧
          heap.allocate object roots = (.ok h, after.filled h object)) ∨
        (after.Full ∧ heap.allocate object roots =
          (.error object,
            { after with arena := { after.arena with cursor := after.capacity } })))) := by
  cases room : Arena.nextFree? heap.arena.slots heap.arena.cursor with
  | some i =>
    refine .inl ⟨⟨i⟩, tidy.firstFree room, ?_⟩
    simp only [allocate, Arena.allocate, room]
    rfl
  | none =>
    refine .inr ⟨tidy.full room, _, rfl, ?_⟩
    -- The failed attempt moves the cursor, and the collection moves it back.
    have swept := tidy.collect (roots ++ object.children)
    have retry : heap.allocate object roots =
        let after := (heap.collect (roots ++ object.children)).2
        ((after.arena.allocate object).1,
          { after with arena := (after.arena.allocate object).2 }) := by
      simp only [allocate, Arena.allocate, room]
      rfl
    cases again : Arena.nextFree? (heap.collect (roots ++ object.children)).2.arena.slots
        (heap.collect (roots ++ object.children)).2.arena.cursor with
    | some i =>
      refine .inl ⟨⟨i⟩, swept.firstFree again, ?_⟩
      rw [retry]
      simp only [Arena.allocate, again]
      rfl
    | none =>
      refine .inr ⟨swept.full again, ?_⟩
      rw [retry]
      simp only [Arena.allocate, again]
      rfl

theorem Tidy.filled {heap : Heap} (tidy : heap.Tidy) {h : Handle} (first : heap.FirstFree h)
    (object : Object) : (heap.filled h object).Tidy where
  paired := tidy.paired.set h.slot (Slot.paired_holding object _)
  unmarked k c found := by
    rw [cell?_filled first.1] at found
    split at found
    · cases Option.some.inj found
      rfl
    · exact tidy.unmarked k c found
  packed i below := by
    rcases Nat.eq_or_lt_of_le (Nat.le_of_lt_succ below) with rfl | before
    · exact ⟨object, (get?_eq_some).mpr ⟨_, (cell?_filled first.1 object h).trans (if_pos rfl), rfl⟩⟩
    · obtain ⟨o, used⟩ := first.2.2 i before
      obtain ⟨c, found, same⟩ := (get?_eq_some).mp used
      refine ⟨o, (get?_eq_some).mpr ⟨c, ?_, same⟩⟩
      have other : (⟨i⟩ : Handle) ≠ h := fun equal => by subst equal; exact Nat.lt_irrefl i before
      rw [cell?_filled first.1, if_neg other, found]
  born k c found := by
    rw [cell?_filled first.1] at found
    split at found
    · cases Option.some.inj found
      exact Nat.lt_succ_self _
    · exact Nat.lt_succ_of_lt (tidy.born k c found)

theorem Tidy.allocate {heap : Heap} (tidy : heap.Tidy) (object : Object) (roots : List Handle) :
    (heap.allocate object roots).2.Tidy := by
  rcases allocate_inv tidy object roots with ⟨h, first, same⟩ | ⟨_, after, rfl, rest⟩
  · rw [same]
    exact tidy.filled first object
  · have swept := tidy.collect (roots ++ object.children)
    rcases rest with ⟨h, first, same⟩ | ⟨full, same⟩
    · rw [same]
      exact swept.filled first object
    · rw [same]
      exact ⟨swept.paired, swept.unmarked, full, swept.born⟩

theorem Tidy.modify {heap : Heap} (tidy : heap.Tidy) (h : Handle) (f : Object → Object) :
    (heap.modify h f).Tidy where
  paired := tidy.paired.edit h.slot f
  unmarked k c found := by
    rw [cell?_modify] at found
    split at found
    · obtain ⟨d, before, rfl⟩ := Option.map_eq_some_iff.mp found
      exact tidy.unmarked h d before
    · exact tidy.unmarked k c found
  packed i below := by
    obtain ⟨o, used⟩ := tidy.packed i below
    obtain ⟨c, found, _⟩ := (get?_eq_some).mp used
    by_cases same : (⟨i⟩ : Handle) = h
    · refine ⟨f c.object, (get?_eq_some).mpr ⟨{ c with object := f c.object }, ?_, rfl⟩⟩
      rw [cell?_modify, if_pos same, ← same, found]
      rfl
    · refine ⟨c.object, (get?_eq_some).mpr ⟨c, ?_, rfl⟩⟩
      rw [cell?_modify, if_neg same, found]
  born k c found := by
    rw [cell?_modify] at found
    split at found
    · obtain ⟨d, before, rfl⟩ := Option.map_eq_some_iff.mp found
      exact tidy.born h d before
    · exact tidy.born k c found

theorem Tidy.perform {heap : Heap} (tidy : heap.Tidy) (operation : Operation) :
    (heap.perform operation).Tidy := by
  cases operation with
  | allocate object roots => exact tidy.allocate object roots
  | collect roots => exact tidy.collect roots
  | edit h f => exact tidy.modify h f
  | teardown =>
    have empty := tidy_empty heap.capacity
    exact ⟨empty.paired, empty.unmarked, empty.packed, empty.born⟩

theorem Reached.tidy {heap : Heap} (reached : heap.Reached) : heap.Tidy := by
  obtain ⟨capacity, operations, rfl⟩ := reached
  have run : ∀ start : Heap, start.Tidy → (operations.foldl Heap.perform start).Tidy := by
    induction operations with
    | nil => exact fun start tidy => tidy
    | cons operation rest ih => exact fun start tidy => ih _ (tidy.perform operation)
  exact run _ (tidy_empty capacity)

end Heap

end JourneyMachine
