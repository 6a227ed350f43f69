import JourneyMachine.Proofs.Closure.Evolution

/-! The shapes of objects. A heap is shaped if every imitation has a value for each matter field of
its form, and the forms of the machine's own exceptions have one field for the message. What becomes
of a cell is told by the number of its allocation: a heap ages into another if a cell that is still
there is alike, and if every slot in use is, as long as nothing is collected. -/

namespace JourneyMachine

structure Cell.Stays (before after : Cell) : Prop where
  born : after.born = before.born
  genus : after.genus = before.genus
  object : before.object.Alike after.object

theorem Cell.Stays.refl (c : Cell) : c.Stays c := ⟨rfl, rfl, .same⟩

theorem Cell.Stays.trans {before between after : Cell} (first : before.Stays between)
    (second : between.Stays after) : before.Stays after :=
  ⟨second.born.trans first.born, second.genus.trans first.genus, first.object.trans second.object⟩

namespace Heap

def Declares (heap : Heap) (h : Handle) (count : Nat) : Prop :=
  ∃ f, heap.get? h = some (.form f) ∧ f.matter.length = count

/-- An imitation has a value for each matter field of its form. -/
def Suits (heap : Heap) (o : Object) : Prop :=
  ∀ i, o = .imitation i → heap.Declares i.form i.matter.size

/-- Every imitation suits its form, and so does one that carries a message only and is made of a
form of the machine's own exceptions. -/
structure Shaped (builtins : Builtins) (heap : Heap) : Prop where
  suited : ∀ h o, heap.get? h = some o → heap.Suits o
  exception : heap.Declares builtins.exception 1
  ioError : heap.Declares builtins.ioError 1

/-- What becomes of the cells of a heap. -/
structure Ages (old new : Heap) : Prop where
  births : old.arena.births ≤ new.arena.births
  collections : old.collections ≤ new.collections
  cells : ∀ h after, new.arena.cell? h = some after → old.arena.births ≤ after.born ∨
    ∃ before, old.arena.cell? h = some before ∧ before.Stays after
  unswept : new.collections = old.collections → ∀ h before, old.arena.cell? h = some before →
    ∃ after, new.arena.cell? h = some after ∧ before.Stays after

namespace Ages

variable {old mid new : Heap}

theorem refl (heap : Heap) : heap.Ages heap where
  births := Nat.le_refl _
  collections := Nat.le_refl _
  cells _ c found := .inr ⟨c, found, .refl c⟩
  unswept _ _ c found := ⟨c, found, .refl c⟩

theorem trans (first : old.Ages mid) (second : mid.Ages new) : old.Ages new where
  births := first.births.trans second.births
  collections := first.collections.trans second.collections
  cells h after found := by
    rcases second.cells h after found with later | ⟨between, there, stays⟩
    · exact .inl (first.births.trans later)
    · rcases first.cells h between there with later | ⟨before, start, stayed⟩
      · exact .inl (stays.born ▸ later)
      · exact .inr ⟨before, start, stayed.trans stays⟩
  unswept same h before found := by
    have up := first.collections
    have down := second.collections
    obtain ⟨between, there, stayed⟩ := first.unswept (by omega) h before found
    obtain ⟨after, final, stays⟩ := second.unswept (by omega) h between there
    exact ⟨after, final, stayed.trans stays⟩

/-- A cell that was there and has the number of one that is there now has stayed. -/
theorem stays (ages : old.Ages new) (tidy : old.Tidy) {h : Handle} {before after : Cell}
    (start : old.arena.cell? h = some before) (final : new.arena.cell? h = some after)
    (same : after.born = before.born) : before.Stays after := by
  rcases ages.cells h after final with later | ⟨found, there, stays⟩
  · -- Every number given out in the old heap is less than that of a later birth.
    have earlier := tidy.born h before start
    omega
  · cases Option.some.inj (start.symm.trans there)
    exact stays

end Ages

section Operations

variable {heap : Heap} {builtins : Builtins} {h k : Handle} {count : Nat} {object : Object}
  {f : Object → Object} {roots : List Handle}

theorem ages_collect (tidy : heap.Tidy) (roots : List Handle) :
    heap.Ages (heap.collect roots).2 where
  births := Nat.le_refl _
  collections := Nat.le_succ _
  cells _ c found := .inr ⟨c, cell?_of_collect tidy found, .refl c⟩
  unswept same := absurd same (Nat.succ_ne_self _)

theorem ages_filled (first : heap.FirstFree h) (object : Object) :
    heap.Ages (heap.filled h object) where
  births := Nat.le_succ _
  collections := Nat.le_refl _
  cells k c found := by
    rw [cell?_filled first.1] at found
    split at found
    · cases Option.some.inj found
      exact .inl (Nat.le_refl _)
    · exact .inr ⟨c, found, .refl c⟩
  unswept _ k c found := by
    have other : k ≠ h := by
      rintro rfl
      rw [(get?_eq_none).mp first.2.1] at found
      contradiction
    exact ⟨c, by rw [cell?_filled first.1, if_neg other, found], .refl c⟩

theorem ages_modify (alike : ∀ o, heap.get? h = some o → o.Alike (f o)) :
    heap.Ages (heap.modify h f) where
  births := Nat.le_refl _
  collections := Nat.le_refl _
  cells k c found := by
    rw [cell?_modify] at found
    split at found
    · rename_i same
      obtain ⟨before, there, rfl⟩ := Option.map_eq_some_iff.mp found
      exact .inr ⟨before, same ▸ there, rfl, rfl, alike _ ((get?_eq_some).mpr ⟨_, there, rfl⟩)⟩
    · exact .inr ⟨c, found, .refl c⟩
  unswept _ k c found := by
    by_cases same : k = h
    · subst same
      refine ⟨{ c with object := f c.object }, ?_, rfl, rfl,
        alike _ ((get?_eq_some).mpr ⟨c, found, rfl⟩)⟩
      rw [cell?_modify, if_pos rfl, found, Option.map_some]
    · exact ⟨c, by rw [cell?_modify, if_neg same, found], .refl c⟩

theorem Declares.reachable (declares : heap.Declares k count) (root : k ∈ roots) :
    heap.Reachable roots k := by
  obtain ⟨_, used, _⟩ := declares
  exact .root root used

theorem Declares.collect (declares : heap.Declares k count) (tidy : heap.Tidy)
    (reachable : heap.Reachable roots k) : (heap.collect roots).2.Declares k count := by
  obtain ⟨f, used, fields⟩ := declares
  exact ⟨f, (get?_collect tidy reachable).trans used, fields⟩

theorem Declares.filled (declares : heap.Declares k count) (first : heap.FirstFree h) :
    (heap.filled h object).Declares k count := by
  obtain ⟨f, used, fields⟩ := declares
  exact ⟨f, get?_filled_of_some first used, fields⟩

theorem Declares.modify (declares : heap.Declares k count)
    (alike : ∀ o, heap.get? h = some o → o.Alike (f o)) :
    (heap.modify h f).Declares k count := by
  obtain ⟨form, used, fields⟩ := declares
  by_cases same : k = h
  · subst same
    have like := alike _ used
    have there : (heap.modify k f).get? k = some (f (.form form)) := by
      rw [get?_modify, if_pos rfl, used, Option.map_some]
    generalize f (.form form) = changed at like there
    cases like with
    | same => exact ⟨form, there, fields⟩
    | form alike => exact ⟨_, there, alike.matter_length.trans fields⟩
  · exact ⟨form, by rw [get?_modify, if_neg same, used], fields⟩

/-- An imitation that is kept leads to its form. -/
theorem Shaped.collect (shaped : heap.Shaped builtins) (tidy : heap.Tidy)
    (exception : builtins.exception ∈ roots) (ioError : builtins.ioError ∈ roots) :
    (heap.collect roots).2.Shaped builtins where
  suited k o used i same := by
    obtain ⟨reachable, before⟩ := get?_of_collect tidy used
    have declares := shaped.suited k o before i same
    obtain ⟨form, there, _⟩ := id declares
    subst same
    exact declares.collect tidy (.child reachable before (List.mem_cons_self ..) there)
  exception := shaped.exception.collect tidy (shaped.exception.reachable exception)
  ioError := shaped.ioError.collect tidy (shaped.ioError.reachable ioError)

theorem Shaped.filled (shaped : heap.Shaped builtins) (first : heap.FirstFree h)
    (suits : heap.Suits object) : (heap.filled h object).Shaped builtins where
  suited k o used i same := by
    rw [get?_filled first] at used
    split at used
    · cases Option.some.inj used
      exact (suits i same).filled first
    · exact (shaped.suited k o used i same).filled first
  exception := shaped.exception.filled first
  ioError := shaped.ioError.filled first

theorem Shaped.modify (shaped : heap.Shaped builtins)
    (alike : ∀ o, heap.get? h = some o → o.Alike (f o))
    (suits : ∀ o, heap.get? h = some o → heap.Suits (f o)) :
    (heap.modify h f).Shaped builtins where
  suited k o used i same := by
    rw [get?_modify] at used
    split at used
    · obtain ⟨before, there, rfl⟩ := Option.map_eq_some_iff.mp used
      exact (suits before there i same).modify alike
    · exact (shaped.suited k o used i same).modify alike
  exception := shaped.exception.modify alike
  ioError := shaped.ioError.modify alike

/-- The form of an imitation that waits for its slot is kept with it. -/
theorem Suits.collect (suits : heap.Suits object) (tidy : heap.Tidy) (roots : List Handle) :
    (heap.collect (roots ++ object.children)).2.Suits object := by
  intro i same
  have declares := suits i same
  subst same
  exact declares.collect tidy
    (declares.reachable (List.mem_append_right _ (List.mem_cons_self ..)))

/-- An allocation keeps a heap shaped, with room or without. -/
theorem Shaped.allocate (shaped : heap.Shaped builtins) (tidy : heap.Tidy)
    (suits : heap.Suits object) (exception : builtins.exception ∈ roots)
    (ioError : builtins.ioError ∈ roots) :
    (heap.allocate object roots).2.Shaped builtins ∧ heap.Ages (heap.allocate object roots).2 := by
  rcases allocate_inv tidy object roots with ⟨h, first, same⟩ | ⟨_, after, rfl, rest⟩
  · rw [same]
    exact ⟨shaped.filled first suits, ages_filled first object⟩
  · have swept := shaped.collect tidy (List.mem_append_left object.children exception)
      (List.mem_append_left object.children ioError)
    have aged := ages_collect tidy (roots ++ object.children)
    rcases rest with ⟨h, first, same⟩ | ⟨_, same⟩
    · -- The sweep has spared what the new object leads to, so the object still suits its form.
      rw [same]
      exact ⟨swept.filled first (suits.collect tidy roots),
        aged.trans (ages_filled first object)⟩
    · rw [same]
      exact ⟨⟨swept.suited, swept.exception, swept.ioError⟩,
        ⟨aged.births, aged.collections, aged.cells, aged.unswept⟩⟩

end Operations

end Heap

end JourneyMachine
