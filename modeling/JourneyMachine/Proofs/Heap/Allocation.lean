import JourneyMachine.Proofs.Heap.Collection

namespace JourneyMachine.Heap

/-- What an allocation for the roots has to give and to leave behind. The object that waits is not
in the heap yet, so what it holds counts as rooted. -/
structure AllocationContract (heap : Heap) (object : Object) (roots : List Handle)
    (result : Except Object Handle) (after : Heap) : Prop where
  collects : heap.Full → after.collections = heap.collections + 1
  spares : ¬ heap.Full → after.collections = heap.collections
  rejects : (∃ o, result = .error o) ↔
    ∀ i < heap.capacity, heap.Reachable (roots ++ object.children) ⟨i⟩
  returned : ∀ o, result = .error o → o = object
  placed : ∀ h, result = .ok h → ¬ heap.Reachable (roots ++ object.children) h ∧
    after.get? h = some object ∧ after.header? h = some ⟨true, false, object.genus⟩
  word : heap.capacity ≤ 2 ^ 32 → ∀ h, result = .ok h → (UInt32.ofNat h.slot).toNat = h.slot
  kept : ∀ k, heap.Reachable (roots ++ object.children) k → after.get? k = heap.get? k
  first : ∀ h, result = .ok h → ¬ heap.Full → heap.FirstFree h

/-- The handles that the allocations among the operations return, in order. -/
def handles (heap : Heap) : List Operation → List Handle
  | [] => []
  | operation :: rest =>
    (match operation with
      | .allocate object roots => (heap.allocate object roots).1.toOption.toList
      | _ => []) ++ handles (heap.perform operation) rest

def freeSlots (heap : Heap) : List Handle :=
  ((List.range heap.capacity).filter fun i => !heap.isLive ⟨i⟩).map Handle.mk

theorem filled_get? {heap : Heap} {h : Handle} (room : h.slot < heap.capacity) (object : Object) :
    (heap.filled h object).get? h = some object :=
  (get?_eq_some).mpr ⟨_, (cell?_filled room object h).trans (if_pos rfl), rfl⟩

theorem filled_header? {heap : Heap} {h : Handle} (room : h.slot < heap.capacity)
    (object : Object) :
    (heap.filled h object).header? h = some ⟨true, false, object.genus⟩ := by
  have inside : h.slot < heap.arena.slots.size := room
  simp [header?, Arena.header?, filled, Slot.holding, inside]

/-- Filling a free slot changes no slot in use. -/
theorem filled_cell? {heap : Heap} {h k : Handle} (first : heap.FirstFree h) (object : Object)
    {c : Cell} (used : heap.arena.cell? k = some c) :
    (heap.filled h object).arena.cell? k = some c := by
  have other : k ≠ h := by
    intro same
    rw [same, (get?_eq_none).mp first.2.1] at used
    contradiction
  rw [cell?_filled first.1, if_neg other, used]

/-- After a collection the reachable slots are the ones in use. -/
theorem collect_full_iff {heap : Heap} (tidy : heap.Tidy) (roots : List Handle) :
    (heap.collect roots).2.Full ↔ ∀ i < heap.capacity, heap.Reachable roots ⟨i⟩ := by
  constructor
  · intro full i inside
    by_cases reachable : heap.Reachable roots ⟨i⟩
    · exact reachable
    · obtain ⟨o, used⟩ := full i (by rwa [collect_capacity])
      rw [(get?_eq_none).mpr (collect_freed tidy reachable)] at used
      contradiction
  · intro all i inside
    rw [collect_capacity] at inside
    obtain ⟨o, used⟩ := (all i inside).inUse
    refine ⟨o, ?_⟩
    obtain ⟨c, found, same⟩ := (get?_eq_some).mp used
    exact (get?_eq_some).mpr ⟨c, (collect_kept tidy (all i inside)).trans found, same⟩

/-- An object may go into a slot that is free, before or after a collection, if what was reachable is
still there. -/
theorem AllocationContract.of_filled {heap base : Heap} {object : Object} {roots : List Handle}
    {h : Handle} (free : base.FirstFree h) (capacity : base.capacity = heap.capacity)
    (kept : ∀ k, heap.Reachable (roots ++ object.children) k →
      base.arena.cell? k = heap.arena.cell? k)
    (collects : heap.Full → base.collections = heap.collections + 1)
    (spares : ¬ heap.Full → base.collections = heap.collections)
    (first : ¬ heap.Full → heap.FirstFree h) :
    AllocationContract heap object roots (.ok h) (base.filled h object) := by
  have inside : h.slot < heap.capacity := capacity ▸ free.1
  have lost : ¬ heap.Reachable (roots ++ object.children) h := fun reachable => by
    obtain ⟨o, used⟩ := reachable.inUse
    obtain ⟨c, found, _⟩ := (get?_eq_some).mp used
    have gone := (get?_eq_none).mp free.2.1
    rw [kept h reachable, found] at gone
    contradiction
  refine ⟨collects, spares, ⟨?_, ?_⟩, ?_, ?_, ?_, ?_, ?_⟩
  · rintro ⟨o, failed⟩
    cases failed
  · exact fun all => absurd (all h.slot inside) lost
  · intro o failed
    cases failed
  · intro k placed
    cases placed
    exact ⟨lost, filled_get? free.1 object, filled_header? free.1 object⟩
  · intro small k placed
    cases placed
    exact UInt32.toNat_ofNat_of_lt' (Nat.lt_of_lt_of_le inside small)
  · intro k reachable
    obtain ⟨o, used⟩ := reachable.inUse
    obtain ⟨c, found, _⟩ := (get?_eq_some).mp used
    have still := (kept k reachable).trans found
    simp [get?, Arena.get?_eq_map, found, filled_cell? free object still]
  · intro k placed room
    cases placed
    exact first room

theorem allocate_meets {heap : Heap} (tidy : heap.Tidy) (object : Object) (roots : List Handle) :
    AllocationContract heap object roots (heap.allocate object roots).1
      (heap.allocate object roots).2 := by
  have rooted := collect_full_iff tidy (roots ++ object.children)
  rcases allocate_inv tidy object roots with ⟨h, free, same⟩ | ⟨full, after, rfl, rest⟩
  · -- There is a free slot.
    have room : ¬ heap.Full := fun full => by
      obtain ⟨o, used⟩ := full h.slot free.1
      rw [free.2.1] at used
      contradiction
    rw [same]
    exact .of_filled free rfl (fun _ _ => rfl) (fun full => absurd full room) (fun _ => rfl)
      fun _ => free
  · rcases rest with ⟨h, free, same⟩ | ⟨still, same⟩
    · -- The collection made room.
      rw [same]
      exact .of_filled free (collect_capacity heap _) (fun _ => collect_kept tidy) (fun _ => rfl)
        (fun room => absurd full room) fun room => absurd full room
    · -- Everything is needed.
      rw [same]
      refine ⟨fun _ => rfl, fun room => absurd full room, ⟨?_, ?_⟩, ?_, ?_, ?_, ?_, ?_⟩
      · exact fun _ => rooted.mp still
      · exact fun _ => ⟨object, rfl⟩
      · intro o failed
        cases failed
        rfl
      · intro k placed
        cases placed
      · intro _ k placed
        cases placed
      · intro k reachable
        simp only [get?, Arena.get?_eq_map]
        exact congrArg _ (collect_kept tidy reachable)
      · intro k placed
        cases placed

theorem isLive_filled {heap : Heap} {h : Handle} (room : h.slot < heap.capacity)
    (object : Object) (k : Handle) :
    (heap.filled h object).isLive k = (decide (k = h) || heap.isLive k) := by
  have inside : h.slot < heap.arena.slots.size := room
  by_cases same : k = h
  · subst same
    simp [isLive, header?, Arena.header?, filled, Slot.holding, inside]
  · have other : h.slot ≠ k.slot := fun equal => same (by cases k; cases h; simp_all)
    simp [isLive, header?, Arena.header?, filled, other, same]

/-- Filling the first free slot takes it off the front of the free ones. -/
theorem freeSlots_filled {heap : Heap} (tidy : heap.Tidy) {h : Handle} (first : heap.FirstFree h)
    (object : Object) : heap.freeSlots = h :: (heap.filled h object).freeSlots := by
  have capacity : (heap.filled h object).capacity = heap.capacity := by
    simp [filled, Heap.capacity, Arena.capacity]
  obtain ⟨count, total⟩ := Nat.exists_eq_add_of_lt first.1
  -- The slots before the first free one, that one, and the slots above it.
  have ranges : List.range heap.capacity =
      List.range h.slot ++ h.slot :: List.range' (h.slot + 1) count := by
    rw [total, Nat.add_assoc, List.range_add, List.range_succ_eq_map]
    simp [List.range'_eq_map_range, Nat.add_comm, Nat.add_left_comm, Function.comp_def]
  have used : ∀ i < h.slot, heap.isLive ⟨i⟩ = true ∧ (heap.filled h object).isLive ⟨i⟩ = true := by
    intro i below
    obtain ⟨o, there⟩ := first.2.2 i below
    obtain ⟨c, found, _⟩ := (get?_eq_some).mp there
    have live := (isLive_iff tidy).mpr ⟨c, found⟩
    exact ⟨live, by simp [isLive_filled first.1, live]⟩
  have free : heap.isLive h = false := by
    rw [Bool.eq_false_iff, Ne, isLive_iff tidy, (get?_eq_none).mp first.2.1]
    simp
  have taken : (heap.filled h object).isLive h = true := by simp [isLive_filled first.1]
  have above : ∀ i ∈ List.range' (h.slot + 1) count,
      heap.isLive ⟨i⟩ = (heap.filled h object).isLive ⟨i⟩ := by
    intro i member
    have other : (⟨i⟩ : Handle) ≠ h := by
      intro same
      subst same
      exact Nat.lt_irrefl i (List.mem_range'_1.mp member).1
    simp [isLive_filled first.1, other]
  have front : ∀ live : Nat → Bool, (∀ i < h.slot, live i = true) →
      (List.range h.slot).filter (fun i => !live i) = [] := by
    intro live all
    refine List.filter_eq_nil_iff.mpr fun i member => ?_
    simp [all i (List.mem_range.mp member)]
  have tails : (List.range' (h.slot + 1) count).filter (fun i => !heap.isLive ⟨i⟩) =
      (List.range' (h.slot + 1) count).filter (fun i => !(heap.filled h object).isLive ⟨i⟩) :=
    List.filter_congr fun i member => by rw [above i member]
  simp only [freeSlots, capacity, ranges, List.filter_append, List.filter_cons,
    front _ fun i below => (used i below).1, front _ fun i below => (used i below).2, tails]
  simp [free, taken]

theorem freeSlots_modify (heap : Heap) (h : Handle) (f : Object → Object) :
    (heap.modify h f).freeSlots = heap.freeSlots := by
  have capacity : (heap.modify h f).capacity = heap.capacity := by
    simp [modify, Arena.modify, Heap.capacity, Arena.capacity]
  have same : ∀ k, (heap.modify h f).isLive k = heap.isLive k := by
    intro k
    simp only [isLive, header?, Arena.header?, modify, Arena.modify, Array.getElem?_modify]
    split
    · rw [Option.map_map]
      rfl
    · rfl
  simp only [freeSlots, capacity, same]

theorem perform_collections {heap : Heap} (tidy : heap.Tidy) (operation : Operation) :
    heap.collections ≤ (heap.perform operation).collections := by
  cases operation with
  | allocate object roots =>
    have contract := allocate_meets tidy object roots
    by_cases full : heap.Full
    · exact Nat.le_of_lt (by have more := contract.collects full; simp only [perform]; omega)
    · exact Nat.le_of_eq (contract.spares full).symm
  | collect roots => exact Nat.le_succ _
  | edit h f => exact Nat.le_refl _
  | teardown => exact Nat.le_refl _

theorem run_collections {heap : Heap} (tidy : heap.Tidy) (operations : List Operation) :
    heap.collections ≤ (operations.foldl perform heap).collections := by
  induction operations generalizing heap with
  | nil => exact Nat.le_refl _
  | cons operation rest ih =>
    exact Nat.le_trans (perform_collections tidy operation) (ih (tidy.perform operation))

/-- Without a collection or a teardown the allocations return the free slots one after the other. -/
theorem handles_eq_take {heap : Heap} (tidy : heap.Tidy) (operations : List Operation)
    (alive : Operation.teardown ∉ operations)
    (quiet : (operations.foldl perform heap).collections = heap.collections) :
    heap.handles operations = heap.freeSlots.take (heap.handles operations).length := by
  induction operations generalizing heap with
  | nil => rfl
  | cons operation rest ih =>
    have lower := perform_collections tidy operation
    have upper := run_collections (tidy.perform operation) rest
    rw [List.foldl_cons] at quiet
    have tail := ih (tidy.perform operation) (fun member => alive (List.mem_cons_of_mem _ member))
      (by omega)
    cases operation with
    | allocate object roots =>
      rcases allocate_inv tidy object roots with ⟨h, first, same⟩ | ⟨full, _⟩
      · simp only [handles, perform, same] at tail ⊢
        rw [freeSlots_filled tidy first object]
        simpa [Except.toOption] using tail
      · have more := (allocate_meets tidy object roots).collects full
        simp only [perform] at lower upper quiet
        omega
    | collect roots =>
      have more : (heap.perform (.collect roots)).collections = heap.collections + 1 := rfl
      omega
    | edit h f =>
      simp only [perform, freeSlots_modify] at tail
      exact tail
    | teardown => exact absurd (List.mem_cons_self ..) alive

theorem freeSlots_teardown (heap : Heap) :
    heap.teardown.freeSlots = (List.range heap.capacity).map Handle.mk := by
  have free : ∀ i, heap.teardown.isLive ⟨i⟩ = false := fun i => by
    simp only [isLive, header?, Arena.header?, teardown, Arena.clear, Arena.empty,
      Array.getElem?_replicate]
    split <;> rfl
  have capacity : heap.teardown.capacity = heap.capacity := by
    simp [teardown, Heap.capacity, Arena.capacity, Arena.clear, Arena.empty]
  simp [freeSlots, free, capacity]

/-- Every allocation in every heap meets its contract. From there on to the next collection or
teardown the handles returned are the free slots in increasing order; after a teardown these are
all slots again. -/
theorem allocate_exact (heap : Heap) (reached : heap.Reached) (object : Object)
    (roots : List Handle) :
    AllocationContract heap object roots (heap.allocate object roots).1
      (heap.allocate object roots).2 ∧
    (∀ operations : List Operation, Operation.teardown ∉ operations →
      (operations.foldl perform heap).collections = heap.collections →
      heap.handles operations = heap.freeSlots.take (heap.handles operations).length) ∧
    heap.teardown.freeSlots = (List.range heap.capacity).map Handle.mk :=
  ⟨allocate_meets reached.tidy object roots, handles_eq_take reached.tidy,
    freeSlots_teardown heap⟩

/-- A teardown is no collection, but gives the first slot out again. -/
theorem teardown_restarts :
    let operations : List Operation :=
      [.allocate (.text "first") [], .teardown, .allocate (.text "second") []]
    (empty 4).Reached ∧
    (operations.foldl perform (empty 4)).collections = (empty 4).collections ∧
    (empty 4).handles operations = [⟨0⟩, ⟨0⟩] ∧
    (empty 4).handles operations ≠
      (empty 4).freeSlots.take ((empty 4).handles operations).length := by
  refine ⟨⟨4, [], rfl⟩, ?_⟩
  decide +kernel

/-- In the knot the last slot is free, and an edit in between does not disturb the order. -/
theorem allocate_knot :
    knot.Reached ∧
    AllocationContract knot (.book #[.text ⟨2⟩]) [⟨1⟩] (.ok ⟨3⟩)
      (knot.allocate (.book #[.text ⟨2⟩]) [⟨1⟩]).2 ∧
    knot.handles [.edit ⟨0⟩ fun _ => .book #[], .allocate (.text "new") []] =
      knot.freeSlots.take 1 := by
  have reached : knot.Reached := ⟨4, _, rfl⟩
  obtain ⟨contract, order, _⟩ := allocate_exact knot reached (.book #[.text ⟨2⟩]) [⟨1⟩]
  have result : (knot.allocate (.book #[.text ⟨2⟩]) [⟨1⟩]).1 = .ok ⟨3⟩ := by
    have placed : (knot.allocate (.book #[.text ⟨2⟩]) [⟨1⟩]).1.toOption = some ⟨3⟩ := by
      decide +kernel
    cases same : (knot.allocate (.book #[.text ⟨2⟩]) [⟨1⟩]).1 with
    | ok h =>
      rw [same] at placed
      exact congrArg Except.ok (Option.some.inj placed)
    | error rejected =>
      rw [same] at placed
      contradiction
  have given : (knot.handles [.edit ⟨0⟩ fun _ => .book #[], .allocate (.text "new") []]).length =
      1 := by decide +kernel
  rw [result] at contract
  refine ⟨reached, contract, ?_⟩
  rw [order _ (by simp) (by decide +kernel), given]

end JourneyMachine.Heap
