import JourneyMachine.Proofs.Heap.Allocation

namespace JourneyMachine

namespace Arena

/-- What can be done with an arena. An edit may put any object in the place of another. -/
inductive Operation where
  | allocate (object : Object)
  | rewind
  | mark (roots : List Handle)
  | sweep
  | clear
  | edit (h : Handle) (f : Object → Object)

def perform (a : Arena) : Operation → Arena
  | .allocate object => (a.allocate object).2
  | .rewind => a.rewind
  | .mark roots => a.mark roots
  | .sweep => a.sweep.2
  | .clear => a.clear
  | .edit h f => a.modify h f

/-- The header of the slot says that it is in use. -/
def InUse (a : Arena) (h : Handle) : Prop :=
  ∃ header, a.header? h = some header ∧ header.inUse = true

/-- What the headers, the objects and the counters of an arena agree on. -/
structure Balanced (a : Arena) : Prop where
  held : ∀ h, a.InUse h ↔ ∃ o, a.get? h = some o
  marked : ∀ h header, a.header? h = some header → header.marked = true → a.InUse h
  live : a.live = {h | a.InUse h}.ncard
  cursor : a.cursor ≤ a.capacity

/-- What every operation keeps: headers agree with objects, the counter is the number of slots in
use, and the cursor stays inside. -/
structure Counted (a : Arena) : Prop where
  paired : Paired a.slots
  live : a.live = a.slots.countP (·.header.inUse)
  cursor : a.cursor ≤ a.capacity

theorem Paired.inUse_iff {a : Arena} (paired : Paired a.slots) {h : Handle} :
    a.InUse h ↔ ∃ c, cellAt a.slots h = some c := by
  simp only [InUse, header?]
  cases there : a.slots[h.slot]? with
  | none => simp [cellAt, there]
  | some slot => simp [paired.inUse_eq there, Option.isSome_iff_exists]

theorem Paired.countP_inUse {slots : Array Slot} (paired : Paired slots) :
    slots.countP (·.header.inUse) = {h | ∃ c, cellAt slots h = some c}.ncard := by
  have cells := paired.countP_eq (p := (·.header.inUse)) (q := fun _ => true)
    fun slot paired => by rw [paired.inUse_eq]; cases slot.cell? <;> rfl
  simpa using cells

theorem Counted.balanced {a : Arena} (counted : a.Counted) : a.Balanced where
  held h := by
    rw [counted.paired.inUse_iff]
    simp [get?_eq_map, cell?]
  marked h header found marked := by
    refine ⟨header, found, ?_⟩
    obtain ⟨slot, there, rfl⟩ := Option.map_eq_some_iff.mp found
    have paired := counted.paired _ slot there
    cases same : slot.object with
    | none => simp [paired.free same] at marked
    | some object => simp [paired.inUse, same]
  live := by
    rw [counted.live, counted.paired.countP_inUse]
    simp only [counted.paired.inUse_iff]
  cursor := counted.cursor

theorem counted_empty (capacity : Nat) : (empty capacity).Counted where
  paired := paired_empty capacity
  live := by simp [empty, Array.countP_replicate]
  cursor := Nat.zero_le _

theorem Counted.allocate {a : Arena} (counted : a.Counted) (object : Object) :
    (a.allocate object).2.Counted := by
  simp only [Arena.allocate]
  cases room : nextFree? a.slots a.cursor with
  | none => exact ⟨counted.paired, counted.live, Nat.le_refl _⟩
  | some i =>
    obtain ⟨_, ⟨slot, there, free⟩, _⟩ := nextFree?_some room
    obtain ⟨inside, rfl⟩ := Array.getElem?_eq_some_iff.mp there
    refine ⟨counted.paired.set i (Slot.paired_holding object _), ?_, ?_⟩
    · simp [Array.setIfInBounds, inside, Array.countP_set, free, counted.live, Slot.holding]
    · simpa [capacity] using inside

theorem Counted.rewind {a : Arena} (counted : a.Counted) : a.rewind.Counted :=
  ⟨counted.paired, counted.live, Nat.zero_le _⟩

/-- An operation that leaves every cell in its slot leaves the counters right. -/
theorem Counted.congr {a b : Arena} (counted : a.Counted) (paired : Paired b.slots)
    (live : b.live = a.live) (cursor : b.cursor = a.cursor) (size : b.slots.size = a.slots.size)
    (cells : ∀ h, (∃ c, cellAt b.slots h = some c) ↔ ∃ c, cellAt a.slots h = some c) :
    b.Counted where
  paired := paired
  live := by
    rw [live, counted.live, counted.paired.countP_inUse, paired.countP_inUse]
    simp only [cells]
  cursor := by
    have inside := counted.cursor
    simp only [capacity] at inside ⊢
    omega

/-- Marking leaves every cell in its slot, whatever was marked before. -/
theorem mark_cells {a : Arena} (paired : Paired a.slots) (roots : List Handle) :
    Paired (a.mark roots).slots ∧ (a.mark roots).slots.size = a.slots.size ∧
    ∀ h, (∃ c, cellAt (a.mark roots).slots h = some c) ↔ ∃ c, cellAt a.slots h = some c := by
  apply markSlots_invariant (P := fun s => Paired s.1 ∧ s.1.size = a.slots.size ∧
    ∀ h, (∃ c, cellAt s.1 h = some c) ↔ ∃ c, cellAt a.slots h = some c) _
    ⟨paired, rfl, fun _ => Iff.rfl⟩
  rintro ⟨slots, work⟩ ⟨paired, size, cells⟩
  cases work with
  | nil => exact ⟨paired, size, cells⟩
  | cons k work =>
    simp only [markRound]
    repeat' split
    case h_1.isTrue slot there waiting =>
      refine ⟨paired.set k.slot ((paired _ slot there).mark waiting), by simpa using size, ?_⟩
      intro h
      rw [← cells h, cellAt_set (Array.getElem?_eq_some_iff.mp there).1]
      by_cases same : h = k
      · simp [same, Slot.mark_cell?, cellAt, there]
      · simp [same]
    all_goals exact ⟨paired, size, cells⟩

theorem Counted.mark {a : Arena} (counted : a.Counted) (roots : List Handle) :
    (a.mark roots).Counted := by
  obtain ⟨paired, size, cells⟩ := mark_cells counted.paired roots
  exact counted.congr paired rfl rfl size cells

theorem Counted.sweep {a : Arena} (counted : a.Counted) : a.sweep.2.Counted where
  paired := counted.paired.sweep
  live := by
    simp only [Arena.sweep, sweepCounts, Array.countP_map]
    congr 1
    funext slot
    rcases slot with ⟨⟨_ | _, _ | _, genus⟩, object, born⟩ <;> rfl
  cursor := by simpa [Arena.sweep, capacity] using counted.cursor

theorem Counted.modify {a : Arena} (counted : a.Counted) (h : Handle) (f : Object → Object) :
    (a.modify h f).Counted := by
  apply counted.congr (b := a.modify h f) (counted.paired.edit h.slot f) rfl rfl
    (by simp [Arena.modify])
  intro k
  simp only [Arena.modify, cellAt, Array.getElem?_modify]
  split
  · cases a.slots[k.slot]? with
    | none => simp
    | some slot => simp [Slot.edit_cell?]
  · rfl

theorem Counted.perform {a : Arena} (counted : a.Counted) (operation : Operation) :
    (a.perform operation).Counted := by
  cases operation with
  | allocate object => exact counted.allocate object
  | rewind => exact counted.rewind
  | mark roots => exact counted.mark roots
  | sweep => exact counted.sweep
  | clear => exact counted_empty a.capacity
  | edit h f => exact counted.modify h f

theorem Counted.run {a : Arena} (counted : a.Counted) (operations : List Operation) :
    (operations.foldl Arena.perform a).Counted := by
  induction operations generalizing a with
  | nil => exact counted
  | cons operation rest ih => exact ih (counted.perform operation)

/-- A sweep keeps or frees each of the slots that are counted. -/
theorem Counted.swept {a : Arena} (counted : a.Counted) :
    a.sweep.1.marked + a.sweep.1.freed = a.live := by
  have total := sweepCounts_total a.slots
  have used : a.slots.countP (·.header.inUse) + a.slots.countP (!·.header.inUse) =
      a.slots.size := by
    rw [Array.size_eq_countP_add_countP (p := (·.header.inUse))]
    congr 2
    funext slot
    cases slot.header.inUse <;> rfl
  rw [counted.live]
  change a.sweep.1.marked + a.sweep.1.freed + a.slots.countP (!·.header.inUse) = _ at total
  omega

end Arena

namespace Heap

open Arena (Counted)

theorem counted_collect {heap : Heap} (counted : heap.arena.Counted) (roots : List Handle) :
    (heap.collect roots).2.arena.Counted :=
  (counted.mark roots).sweep.rewind

theorem counted_allocate {heap : Heap} (counted : heap.arena.Counted) (object : Object)
    (roots : List Handle) : (heap.allocate object roots).2.arena.Counted := by
  have first := counted.allocate object
  simp only [allocate]
  split
  · rename_i h arena same
    rwa [same] at first
  · rename_i rejected arena same
    rw [same] at first
    have waiting : ({ heap with arena } : Heap).arena.Counted := first
    exact (counted_collect waiting _).allocate rejected

theorem counted_perform {heap : Heap} (counted : heap.arena.Counted) (operation : Operation) :
    (heap.perform operation).arena.Counted := by
  cases operation with
  | allocate object roots => exact counted_allocate counted object roots
  | collect roots => exact counted_collect counted roots
  | edit h f => exact counted.modify h f
  | teardown => exact Arena.counted_empty heap.capacity

theorem handles_cons (heap : Heap) (operation : Operation) (rest : List Operation) :
    heap.handles (operation :: rest) =
      heap.handles [operation] ++ (heap.perform operation).handles rest := by
  simp [handles]

/-- What a collection releases is no longer counted as live. -/
theorem collect_balance {heap : Heap} (counted : heap.arena.Counted) (roots : List Handle) :
    (heap.collect roots).2.arena.live + (heap.collect roots).2.freed =
      heap.arena.live + heap.freed := by
  have swept := (counted.mark roots).swept
  change _ = heap.arena.live at swept
  change (heap.arena.mark roots).sweep.1.marked +
    (heap.freed + (heap.arena.mark roots).sweep.1.freed) = _
  omega

/-- Live and freed objects grow together by the objects allocated. -/
theorem perform_balance {heap : Heap} (tidy : heap.Tidy) (counted : heap.arena.Counted)
    (operation : Operation) (alive : operation ≠ .teardown) :
    (heap.perform operation).arena.live + (heap.perform operation).freed =
      heap.arena.live + heap.freed + (heap.handles [operation]).length := by
  cases operation with
  | allocate object roots =>
    rcases allocate_inv tidy object roots with
      ⟨h, _, same⟩ | ⟨_, after, rfl, ⟨h, _, same⟩ | ⟨_, same⟩⟩
    · simp only [perform, handles, same, filled]
      simp [Except.toOption]
      omega
    · have balance := collect_balance counted (roots ++ object.children)
      simp only [perform, handles, same, filled]
      simp [Except.toOption]
      omega
    · have balance := collect_balance counted (roots ++ object.children)
      simp only [perform, handles, same]
      simpa [Except.toOption] using balance
  | collect roots => exact collect_balance counted roots
  | edit h f => rfl
  | teardown => contradiction

/-- What holds of a heap after so many successful allocations. -/
structure Accounted (heap : Heap) (allocations : Nat) : Prop where
  balanced : heap.arena.Balanced
  packed : ∀ i < heap.arena.cursor, heap.arena.InUse ⟨i⟩
  unmarked : ∀ h header, heap.header? h = some header → header.marked = false
  total : heap.stats.live + heap.stats.freed = allocations

theorem Tidy.accounted {heap : Heap} (tidy : heap.Tidy) (counted : heap.arena.Counted) :
    heap.Accounted (heap.arena.live + heap.freed) where
  balanced := counted.balanced
  packed i behind := (counted.balanced.held _).mpr (tidy.packed i behind)
  unmarked h header found := by
    cases look : heap.arena.cell? h with
    | some c =>
      rw [header?, tidy.paired.header?_of_cell look] at found
      exact Option.some.inj found ▸ tidy.unmarked h c look
    | none =>
      obtain ⟨slot, there, _⟩ := Option.map_eq_some_iff.mp found
      have inside := (Array.getElem?_eq_some_iff.mp there).1
      rw [header?, tidy.paired.header?_of_free inside look] at found
      exact Option.some.inj found ▸ rfl
  total := rfl

/-- Over any number of operations, by induction from the first. -/
theorem run_accounted {heap : Heap} (tidy : heap.Tidy) (counted : heap.arena.Counted)
    (operations : List Operation) (alive : Operation.teardown ∉ operations) :
    (operations.foldl perform heap).Accounted
      (heap.arena.live + heap.freed + (heap.handles operations).length) := by
  induction operations generalizing heap with
  | nil => exact tidy.accounted counted
  | cons operation rest ih =>
    obtain ⟨this, later⟩ := not_or.mp (fun either => alive (List.mem_cons.mpr either))
    have balance := perform_balance tidy counted operation (Ne.symm this)
    rw [handles_cons, List.length_append, ← Nat.add_assoc, ← balance]
    exact ih (tidy.perform operation) (counted_perform counted operation) later

/-- The books of an arena balance after any operations, and those of a heap that was not torn down
account for every allocation. -/
theorem books_balance (capacity : Nat) :
    (∀ operations : List Arena.Operation,
      (operations.foldl Arena.perform (.empty capacity)).Balanced) ∧
    ∀ operations : List Operation, Operation.teardown ∉ operations →
      (operations.foldl perform (empty capacity)).Accounted
        ((empty capacity).handles operations).length := by
  constructor
  · exact fun operations => ((Arena.counted_empty capacity).run operations).balanced
  · intro operations alive
    have accounted := run_accounted (tidy_empty capacity) (Arena.counted_empty capacity)
      operations alive
    simpa [empty, Arena.empty] using accounted

/-- A collection that makes room, an edit, an allocation that is refused after another collection,
and a collection on request. -/
def ledger : List Operation :=
  [.allocate (.text "kept") [], .allocate (.book #[.text ⟨0⟩]) [⟨0⟩],
    .allocate (.text "second") [⟨0⟩], .edit ⟨1⟩ fun _ => .book #[.text ⟨0⟩],
    .allocate (.text "refused") [⟨1⟩], .collect [⟨0⟩]]

/-- Three objects were placed: one is left, two were released by three collections. -/
theorem ledger_balances :
    Operation.teardown ∉ ledger ∧ (ledger.foldl perform (empty 2)).Accounted 3 ∧
    (ledger.foldl perform (empty 2)).stats = ⟨2, 1, 3, 2⟩ := by
  have alive : Operation.teardown ∉ ledger := by simp [ledger]
  have placed : ((empty 2).handles ledger).length = 3 := by decide +kernel
  exact ⟨alive, placed ▸ (books_balance 2).2 ledger alive, by decide +kernel⟩

end Heap

end JourneyMachine
