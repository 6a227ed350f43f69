import JourneyMachine.Proofs.Heap.Operations
import Mathlib.Data.Set.Card
import Mathlib.Data.Set.Finite.Lattice

namespace JourneyMachine

namespace Arena

/-- A count of slots is the size of the set of their positions. -/
theorem countP_positions (slots : List Slot) (p : Slot → Bool) :
    slots.countP p = {i : Nat | ∃ x, slots[i]? = some x ∧ p x = true}.ncard := by
  induction slots with
  | nil => simp
  | cons first rest ih =>
    have finite : {i : Nat | ∃ x, rest[i]? = some x ∧ p x = true}.Finite := by
      refine (Set.finite_lt_nat rest.length).subset ?_
      rintro i ⟨x, found, _⟩
      exact (List.getElem?_eq_some_iff.mp found).1
    have later : (Nat.succ '' {i : Nat | ∃ x, rest[i]? = some x ∧ p x = true}).ncard =
        rest.countP p := by
      rw [Set.ncard_image_of_injective _ Nat.succ_injective, ih]
    by_cases holds : p first = true
    · have split : {i : Nat | ∃ x, (first :: rest)[i]? = some x ∧ p x = true} =
          insert 0 (Nat.succ '' {i | ∃ x, rest[i]? = some x ∧ p x = true}) := by
        ext i
        cases i <;> simp [holds]
      have apart : (0 : Nat) ∉ Nat.succ '' {i | ∃ x, rest[i]? = some x ∧ p x = true} := by simp
      rw [split, Set.ncard_insert_of_notMem apart (finite.image _), later, List.countP_cons]
      simp [holds]
    · have split : {i : Nat | ∃ x, (first :: rest)[i]? = some x ∧ p x = true} =
          Nat.succ '' {i | ∃ x, rest[i]? = some x ∧ p x = true} := by
        ext i
        cases i <;> simp [holds]
      rw [split, later, List.countP_cons]
      simp [holds]

theorem countP_handles (slots : Array Slot) (p : Slot → Bool) :
    slots.countP p = {h : Handle | ∃ x, slots[h.slot]? = some x ∧ p x = true}.ncard := by
  have image : {h : Handle | ∃ x, slots[h.slot]? = some x ∧ p x = true} =
      Handle.mk '' {i | ∃ x, slots.toList[i]? = some x ∧ p x = true} := by
    ext h
    constructor
    · rintro ⟨x, found, holds⟩
      exact ⟨h.slot, ⟨x, by simpa using found, holds⟩, rfl⟩
    · rintro ⟨i, ⟨x, found, holds⟩, rfl⟩
      exact ⟨x, by simpa using found, holds⟩
  have injective : Function.Injective Handle.mk := fun i j same => Handle.mk.inj same
  rw [image, Set.ncard_image_of_injective _ injective, ← countP_positions]
  simp

/-- What the slots with a property number, if the property can be told of the cells. -/
theorem Paired.countP_eq {slots : Array Slot} (paired : Paired slots) {p : Slot → Bool}
    {q : Cell → Bool} (same : ∀ slot : Slot, slot.Paired → p slot = slot.cell?.any q) :
    slots.countP p = {h | ∃ c, cellAt slots h = some c ∧ q c = true}.ncard := by
  rw [countP_handles]
  congr 1
  ext h
  constructor
  · rintro ⟨slot, there, holds⟩
    rw [same slot (paired _ slot there)] at holds
    obtain ⟨c, found, holds⟩ := (Option.any_eq_true _ _).mp holds
    exact ⟨c, cellAt_eq_some.mpr ⟨slot, there, found⟩, holds⟩
  · rintro ⟨c, found, holds⟩
    obtain ⟨slot, there, found⟩ := cellAt_eq_some.mp found
    refine ⟨slot, there, ?_⟩
    rw [same slot (paired _ slot there), found]
    exact holds

/-- Every slot is in one of the three classes. -/
theorem sweepCounts_total (slots : Array Slot) :
    (sweepCounts slots).marked + (sweepCounts slots).freed + (sweepCounts slots).unused =
      slots.size := by
  obtain ⟨slots⟩ := slots
  simp only [sweepCounts, List.countP_toArray, List.size_toArray]
  induction slots with
  | nil => rfl
  | cons slot rest ih =>
    simp only [List.countP_cons, List.length_cons]
    rcases slot with ⟨⟨_ | _, _ | _, genus⟩, object, born⟩ <;>
      simp [Slot.isKept, Slot.isWaiting] <;> omega

end Arena

namespace Heap

open Arena (cellAt)

theorem isLive_iff {heap : Heap} (tidy : heap.Tidy) {h : Handle} :
    heap.isLive h = true ↔ ∃ c, heap.arena.cell? h = some c := by
  simp only [isLive, header?, Arena.header?, Arena.cell?]
  cases there : heap.arena.slots[h.slot]? with
  | none => simp [cellAt, there]
  | some slot => simp [tidy.paired.inUse_eq there, Option.isSome_iff_exists]

/-- The counts of a collection are the sizes of the classes. -/
theorem collect_counts {heap : Heap} (tidy : heap.Tidy) (roots : List Handle) :
    (heap.collect roots).1.marked = {h | heap.Reachable roots h}.ncard ∧
    (heap.collect roots).1.freed = {h | heap.isLive h = true ∧ ¬ heap.Reachable roots h}.ncard ∧
    (heap.collect roots).1.unused =
      {h : Handle | h.slot < heap.capacity ∧ heap.isLive h = false}.ncard := by
  have search := Arena.mark_searched tidy.paired tidy.unmarked roots
  have size : (heap.arena.mark roots).slots.size = heap.capacity := search.size
  -- A slot before marking and after it hold the same cell but for the mark.
  have live : ∀ h, heap.isLive h = true ↔ ∃ c, cellAt (heap.arena.mark roots).slots h = some c := by
    intro h
    have same := search.cells h
    rw [isLive_iff tidy]
    cases look : cellAt (heap.arena.mark roots).slots h with
    | none => simp [← same, look]
    | some c => simp [← same, look]
  refine ⟨?_, ?_, ?_⟩
  · refine (search.paired.countP_eq fun _ paired => paired.isKept_eq).trans
      (congrArg Set.ncard (Set.ext fun h => ?_))
    constructor
    · rintro ⟨c, look, marked⟩
      exact (search.exact look).mp marked
    · intro reachable
      obtain ⟨o, used⟩ := reachable.inUse
      obtain ⟨d, before, _⟩ := (get?_eq_some).mp used
      obtain ⟨c, look⟩ := (live h).mp ((isLive_iff tidy).mpr ⟨d, before⟩)
      exact ⟨c, look, (search.exact look).mpr reachable⟩
  · refine (search.paired.countP_eq fun _ paired => paired.isWaiting_eq).trans
      (congrArg Set.ncard (Set.ext fun h => ?_))
    constructor
    · rintro ⟨c, look, clear⟩
      refine ⟨(live h).mpr ⟨c, look⟩, fun reachable => ?_⟩
      simp [(search.exact look).mpr reachable] at clear
    · rintro ⟨used, lost⟩
      obtain ⟨c, look⟩ := (live h).mp used
      have clear : ¬ c.marked = true := fun marked => lost ((search.exact look).mp marked)
      exact ⟨c, look, by simp [clear]⟩
  · refine (Arena.countP_handles _ _).trans (congrArg Set.ncard (Set.ext fun h => ?_))
    have inUse : ∀ slot, (heap.arena.mark roots).slots[h.slot]? = some slot →
        slot.header.inUse = heap.isLive h := by
      intro slot there
      rw [search.paired.inUse_eq there, Bool.eq_iff_iff, live h, Option.isSome_iff_exists]
    constructor
    · rintro ⟨slot, there, free⟩
      refine ⟨size ▸ (Array.getElem?_eq_some_iff.mp there).1, ?_⟩
      rw [← inUse slot there]
      simpa using free
    · rintro ⟨inside, unused⟩
      have bound : h.slot < (heap.arena.mark roots).slots.size := by omega
      have there := Array.getElem?_eq_getElem bound
      exact ⟨_, there, by rw [inUse _ there, unused]; rfl⟩

/-- What a collection from the roots has to leave behind, and what its counts have to be. -/
structure CollectionContract (heap : Heap) (roots : List Handle) (counts : SweepCounts)
    (after : Heap) : Prop where
  ends : ∃ rounds ≤ Arena.pending heap.arena.slots + roots.length,
    Arena.markRound^[rounds] (heap.arena.slots, roots) = ((heap.arena.mark roots).slots, [])
  live : ∀ h, after.isLive h = true ↔ heap.isLive h = true ∧ heap.Reachable roots h
  kept : ∀ h c, heap.arena.cell? h = some c → heap.Reachable roots h →
    after.get? h = some c.object ∧ after.header? h = some ⟨true, false, c.genus⟩
  freed : ∀ h, h.slot < heap.capacity → ¬ heap.Reachable roots h →
    after.get? h = none ∧ after.header? h = some ⟨false, false, .ni⟩
  marked_count : counts.marked = {h | heap.Reachable roots h}.ncard
  freed_count : counts.freed = {h | heap.isLive h = true ∧ ¬ heap.Reachable roots h}.ncard
  unused_count : counts.unused =
    {h : Handle | h.slot < heap.capacity ∧ heap.isLive h = false}.ncard
  total : counts.marked + counts.freed + counts.unused = heap.capacity

/-- Every collection of every heap meets its contract, whatever the roots are. -/
theorem collect_exact (heap : Heap) (reached : heap.Reached) (roots : List Handle) :
    CollectionContract heap roots (heap.collect roots).1 (heap.collect roots).2 := by
  have tidy := reached.tidy
  have swept := tidy.collect roots
  obtain ⟨marked, freed, unused⟩ := collect_counts tidy roots
  refine ⟨Arena.markRound_iterate _ _, ?_, ?_, ?_, marked, freed, unused, ?_⟩
  · intro h
    constructor
    · intro live
      obtain ⟨c, found⟩ := (isLive_iff swept).mp live
      by_cases reachable : heap.Reachable roots h
      · exact ⟨(isLive_iff tidy).mpr ⟨c, by rw [← collect_kept tidy reachable, found]⟩, reachable⟩
      · rw [collect_freed tidy reachable] at found
        contradiction
    · rintro ⟨live, reachable⟩
      obtain ⟨c, found⟩ := (isLive_iff tidy).mp live
      exact (isLive_iff swept).mpr ⟨c, by rw [collect_kept tidy reachable, found]⟩
  · intro h c found reachable
    have kept := (collect_kept tidy reachable).trans found
    refine ⟨(get?_eq_some).mpr ⟨c, kept, rfl⟩, ?_⟩
    rw [header?, swept.paired.header?_of_cell kept, tidy.unmarked h c found]
  · intro h inside lost
    have free := collect_freed tidy lost
    rw [← collect_capacity heap roots] at inside
    exact ⟨(get?_eq_none).mpr free, swept.paired.header?_of_free inside free⟩
  · have size := (Arena.mark_searched tidy.paired tidy.unmarked roots).size
    exact (Arena.sweepCounts_total _).trans size

/-- Two books that hold each other, a text that nothing holds, and a free slot. -/
def knot : Heap :=
  [.allocate (.book #[]) [], .allocate (.book #[.book ⟨0⟩]) [],
    .edit ⟨0⟩ fun _ => .book #[.book ⟨1⟩], .allocate (.text "lost") []].foldl perform (empty 4)

/-- From one of the books and a stale handle, the knot stays and the text goes. -/
theorem collect_knot :
    knot.Reached ∧
    CollectionContract knot [⟨1⟩, ⟨9⟩] (knot.collect [⟨1⟩, ⟨9⟩]).1 (knot.collect [⟨1⟩, ⟨9⟩]).2 ∧
    (knot.collect [⟨1⟩, ⟨9⟩]).1 = ⟨2, 1, 1⟩ ∧
    (knot.collect [⟨1⟩, ⟨9⟩]).2.get? ⟨0⟩ = some (.book #[.book ⟨1⟩]) := by
  have reached : knot.Reached := ⟨4, _, rfl⟩
  exact ⟨reached, collect_exact knot reached _, by decide +kernel, by decide +kernel⟩

end Heap

end JourneyMachine
