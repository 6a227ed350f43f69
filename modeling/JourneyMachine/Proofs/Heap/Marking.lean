import JourneyMachine.Proofs.Heap.Slots
import Mathlib.Logic.Function.Iterate

/-! Marking as a search of the object graph. The worklist may hold stale handles, handles twice,
and the graph may have cycles. The invariant is the one of three colours: a marked cell whose
children are not all marked still has them on the worklist. -/

namespace JourneyMachine.Arena

/-- What the roots lead to, through slots in use only. -/
inductive Reachable (a : Arena) (roots : List Handle) : Handle → Prop where
  | root {h : Handle} {o : Object} : h ∈ roots → a.get? h = some o → Reachable a roots h
  | child {h k : Handle} {o p : Object} : Reachable a roots h → a.get? h = some o →
      k ∈ o.children → a.get? k = some p → Reachable a roots k

theorem Reachable.inUse {a : Arena} {roots : List Handle} {h : Handle}
    (reachable : a.Reachable roots h) : ∃ o, a.get? h = some o := by
  cases reachable with
  | root _ used => exact ⟨_, used⟩
  | child _ _ _ used => exact ⟨_, used⟩

theorem Reachable.mono {a : Arena} {roots more : List Handle} {h : Handle}
    (sub : ∀ k ∈ roots, k ∈ more) (reachable : a.Reachable roots h) : a.Reachable more h := by
  induction reachable with
  | root member used => exact .root (sub _ member) used
  | child _ parent member used ih => exact .child ih parent member used

def markRound : Array Slot × List Handle → Array Slot × List Handle
  | (slots, []) => (slots, [])
  | (slots, h :: work) =>
    match slots[h.slot]? with
    | some slot =>
      if slot.isWaiting then (slots.setIfInBounds h.slot slot.mark, slot.children ++ work)
      else (slots, work)
    | none => (slots, work)

/-- Marking is one round followed by the rest. -/
theorem markSlots_round (slots : Array Slot) (h : Handle) (work : List Handle) :
    markSlots slots (h :: work) =
      markSlots (markRound (slots, h :: work)).1 (markRound (slots, h :: work)).2 := by
  rw [markSlots]
  split
  · rename_i slot found
    by_cases waiting : slot.isWaiting = true
    · simp only [markRound, found, if_pos waiting, dif_pos waiting]
    · simp only [markRound, found, if_neg waiting, dif_neg waiting]
  · rename_i found
    simp only [markRound, found]

/-- The loop empties the worklist, after no more rounds than there are handles to look at. -/
theorem markRound_iterate (slots : Array Slot) (work : List Handle) :
    ∃ rounds ≤ pending slots + work.length,
      markRound^[rounds] (slots, work) = (markSlots slots work, []) := by
  -- Marking a slot takes as much off what is pending as its children add to the worklist.
  induction slots, work using markSlots.induct with
  | case1 slots => exact ⟨0, Nat.zero_le _, by rw [markSlots]; rfl⟩
  | case2 slots h work slot found waiting ih =>
    obtain ⟨rounds, bound, same⟩ := ih
    refine ⟨rounds + 1, ?_, ?_⟩
    · have less := pending_mark found waiting
      simp only [List.length_append, List.length_cons] at bound ⊢
      omega
    · rw [Function.iterate_succ_apply, markSlots_round]
      simpa only [markRound, found, waiting, ↓reduceIte] using same
  | case3 slots h work slot found done ih =>
    obtain ⟨rounds, bound, same⟩ := ih
    refine ⟨rounds + 1, by simp only [List.length_cons]; omega, ?_⟩
    rw [Function.iterate_succ_apply, markSlots_round]
    simpa only [markRound, found, if_neg done] using same
  | case4 slots h work found ih =>
    obtain ⟨rounds, bound, same⟩ := ih
    refine ⟨rounds + 1, by simp only [List.length_cons]; omega, ?_⟩
    rw [Function.iterate_succ_apply, markSlots_round]
    simpa only [markRound, found] using same

/-- What every round preserves holds when the worklist is empty. -/
theorem markSlots_invariant {P : Array Slot × List Handle → Prop}
    (step : ∀ s, P s → P (markRound s)) {slots : Array Slot} {work : List Handle}
    (start : P (slots, work)) : P (markSlots slots work, []) := by
  obtain ⟨rounds, bound, same⟩ := markRound_iterate slots work
  rw [← same]
  clear same bound
  induction rounds with
  | zero => exact start
  | succ rounds ih =>
    rw [Function.iterate_succ_apply']
    exact step _ ih

/-- Where a search from the roots stands: nothing but marks has changed, marked cells and the
worklist are reachable, and what a marked cell or a root leads to is marked or still to do. -/
structure Searching (a : Arena) (roots : List Handle) (s : Array Slot × List Handle) :
    Prop where
  size : s.1.size = a.slots.size
  paired : Paired s.1
  cells : ∀ h, (cellAt s.1 h).map Cell.unmark = a.cell? h
  sound : ∀ h c, cellAt s.1 h = some c → c.marked = true → a.Reachable roots h
  work : ∀ h ∈ s.2, ∀ c, cellAt s.1 h = some c → a.Reachable roots h
  roots : ∀ h ∈ roots, ∀ c, cellAt s.1 h = some c → c.marked = true ∨ h ∈ s.2
  children : ∀ h c k d, cellAt s.1 h = some c → c.marked = true → k ∈ c.object.children →
    cellAt s.1 k = some d → d.marked = true ∨ k ∈ s.2

theorem Searching.object {a : Arena} {roots : List Handle}
    {s : Array Slot × List Handle} (search : Searching a roots s) {h : Handle} {c : Cell}
    (found : cellAt s.1 h = some c) : a.get? h = some c.object := by
  have same := search.cells h
  rw [found] at same
  simp [get?_eq_map, ← same, Cell.unmark]

theorem searching_start {a : Arena} (paired : Paired a.slots)
    (clean : ∀ h c, a.cell? h = some c → c.marked = false) (roots : List Handle) :
    Searching a roots (a.slots, roots) where
  size := rfl
  paired := paired
  cells h := by
    change (a.cell? h).map Cell.unmark = a.cell? h
    cases found : a.cell? h with
    | none => rfl
    | some c =>
      have unmarkedAlready := clean h c found
      cases c
      simp_all [Cell.unmark]
  sound h c found marked := by
    rw [clean h c found] at marked
    contradiction
  work h member c found := by
    have used : a.cell? h = some c := found
    exact .root (o := c.object) member (by simp [get?_eq_map, used])
  roots h member c found := .inr member
  children h c k d found marked := by
    rw [clean h c found] at marked
    contradiction

/-- A round that finds a free or a marked slot only shortens the worklist. -/
theorem Searching.skip {a : Arena} {roots : List Handle} {slots : Array Slot} {h : Handle}
    {work : List Handle} (search : Searching a roots (slots, h :: work))
    (done : ∀ c, cellAt slots h = some c → c.marked = true) : Searching a roots (slots, work) where
  size := search.size
  paired := search.paired
  cells := search.cells
  sound := search.sound
  work k member := search.work k (List.mem_cons_of_mem _ member)
  roots k member c found := by
    rcases search.roots k member c found with marked | pending
    · exact .inl marked
    · rcases List.mem_cons.mp pending with rfl | later
      · exact .inl (done c found)
      · exact .inr later
  children p c k d parent marked member found := by
    rcases search.children p c k d parent marked member found with marked | pending
    · exact .inl marked
    · rcases List.mem_cons.mp pending with rfl | later
      · exact .inl (done d found)
      · exact .inr later

/-- A round that marks a slot puts its children on the worklist. -/
theorem Searching.visit {a : Arena} {roots : List Handle} {slots : Array Slot} {h : Handle}
    {work : List Handle} {slot : Slot} (search : Searching a roots (slots, h :: work))
    (there : slots[h.slot]? = some slot) (waiting : slot.isWaiting = true) :
    Searching a roots (slots.setIfInBounds h.slot slot.mark, slot.children ++ work) := by
  have paired := search.paired _ slot there
  rw [paired.isWaiting_eq] at waiting
  obtain ⟨c, same, _⟩ := (Option.any_eq_true _ _).mp waiting
  have found : cellAt slots h = some c := cellAt_eq_some.mpr ⟨slot, there, same⟩
  have reached : a.Reachable roots h := search.work h (List.mem_cons_self ..) c found
  have look : ∀ k, cellAt (slots.setIfInBounds h.slot slot.mark) k =
      if k = h then some { c with marked := true } else cellAt slots k := fun k => by
    rw [cellAt_set (cellAt_lt found), Slot.mark_cell?, same, Option.map_some]
  rw [Slot.children_eq same]
  -- A cell after the round is the visited one, now marked, or a cell from before it.
  have cases : ∀ k d, cellAt (slots.setIfInBounds h.slot slot.mark) k = some d →
      (k = h ∧ d = { c with marked := true }) ∨ (k ≠ h ∧ cellAt slots k = some d) := by
    intro k d now
    rw [look k] at now
    by_cases same : k = h
    · rw [if_pos same] at now
      exact .inl ⟨same, (Option.some.inj now).symm⟩
    · rw [if_neg same] at now
      exact .inr ⟨same, now⟩
  constructor
  · simpa using search.size
  · exact search.paired.set h.slot (paired.mark (paired.isWaiting_eq ▸ waiting))
  · intro k
    have before := search.cells k
    rw [look k]
    by_cases same : k = h
    · rw [if_pos same, ← before, same, found]
      rfl
    · rw [if_neg same]
      exact before
  · intro k d now marked
    rcases cases k d now with ⟨rfl, _⟩ | ⟨_, before⟩
    · exact reached
    · exact search.sound k d before marked
  · intro k member d now
    rcases cases k d now with ⟨rfl, _⟩ | ⟨_, before⟩
    · exact reached
    · rcases List.mem_append.mp member with child | later
      · exact .child reached (search.object found) child (search.object before)
      · exact search.work k (List.mem_cons_of_mem _ later) d before
  · intro k member d now
    rcases cases k d now with ⟨_, rfl⟩ | ⟨other, before⟩
    · exact .inl rfl
    · rcases search.roots k member d before with marked | pending
      · exact .inl marked
      · exact .inr (List.mem_append_right _ ((List.mem_cons.mp pending).resolve_left other))
  · intro p e k d parent marked member now
    rcases cases k d now with ⟨_, rfl⟩ | ⟨other, before⟩
    · exact .inl rfl
    · rcases cases p e parent with ⟨_, rfl⟩ | ⟨_, parentBefore⟩
      · exact .inr (List.mem_append_left _ member)
      · rcases search.children p e k d parentBefore marked member before with marked | pending
        · exact .inl marked
        · exact .inr (List.mem_append_right _ ((List.mem_cons.mp pending).resolve_left other))

theorem searching_round {a : Arena} {roots : List Handle}
    (s : Array Slot × List Handle) (search : Searching a roots s) :
    Searching a roots (markRound s) := by
  obtain ⟨slots, work⟩ := s
  cases work with
  | nil => exact search
  | cons h work =>
    simp only [markRound]
    split
    · rename_i slot there
      split
      · rename_i waiting
        exact search.visit there waiting
      · rename_i done
        refine search.skip fun c found => ?_
        obtain ⟨_, again, same⟩ := cellAt_eq_some.mp found
        cases there.symm.trans again
        simpa [(search.paired _ slot there).isWaiting_eq, same] using done
    · rename_i missing
      exact search.skip fun c found => by simp [cellAt, missing] at found

/-- An empty worklist leaves exactly the reachable cells marked. -/
theorem Searching.exact {a : Arena} {roots : List Handle} {slots : Array Slot}
    (search : Searching a roots (slots, [])) {h : Handle} {c : Cell}
    (found : cellAt slots h = some c) : c.marked = true ↔ a.Reachable roots h := by
  have used : ∀ k p, a.get? k = some p → ∃ d, cellAt slots k = some d ∧ d.object = p := by
    intro k p there
    cases look : cellAt slots k with
    | none =>
      have before := search.cells k
      rw [look] at before
      simp [get?_eq_map, ← before] at there
    | some d =>
      refine ⟨d, rfl, ?_⟩
      have same := search.object (s := (slots, [])) look
      rw [there] at same
      exact (Option.some.inj same).symm
  constructor
  · exact search.sound h c found
  · intro reachable
    induction reachable generalizing c with
    | root member _ => exact (search.roots _ member c found).resolve_right List.not_mem_nil
    | @child p k o q _ parent member _ ih =>
      obtain ⟨d, look, rfl⟩ := used p o parent
      exact (search.children p d k c look (ih look) member found).resolve_right List.not_mem_nil

/-- Marking changes marks only, and marks what the roots lead to. -/
theorem mark_searched {a : Arena} (paired : Paired a.slots)
    (clean : ∀ h c, a.cell? h = some c → c.marked = false) (roots : List Handle) :
    Searching a roots ((a.mark roots).slots, []) :=
  markSlots_invariant searching_round (searching_start paired clean roots)

end JourneyMachine.Arena
