import JourneyMachine.Proofs.Seclusion.Steps

/-! New objects are secluded. In a closed machine nothing refers to a slot that is free, so an object
that is placed there and pinned is known to nobody but the computation that made it. Whatever code
such a computation calls, the object stays what it wrote there last. -/

namespace JourneyMachine

namespace Heap

variable {heap base new : Heap} {values : List Value} {object : Object} {h : Handle}

theorem FirstFree.avoids (first : base.FirstFree h) {v : Value} (refers : base.Refers v) :
    v.Avoids h := by
  intro found
  obtain ⟨o, used, _⟩ := refers h found
  rw [first.2.1] at used
  contradiction

/-- An object is placed in a free slot of the heap, or of what a collection has left of it. -/
theorem allocate_fills (tidy : heap.Tidy) (closed : heap.Closed)
    (refer : ∀ v ∈ values, heap.Refers v)
    (same : heap.allocate object (values.filterMap Value.handle?) = (.ok h, new)) :
    ∃ base : Heap, base.Closed ∧ base.FirstFree h ∧ new = base.filled h object ∧
      ∀ v ∈ values, base.Refers v := by
  rcases allocate_inv tidy object (values.filterMap Value.handle?) with
    ⟨k, first, equal⟩ | ⟨_, after, rfl, ⟨k, first, equal⟩ | ⟨_, equal⟩⟩
  · cases same.symm.trans equal
    exact ⟨heap, closed, first, rfl, refer⟩
  · cases same.symm.trans equal
    refine ⟨_, closed.collect tidy, first, rfl, fun v member => ?_⟩
    exact (refer v member).collect tidy member fun k there => List.mem_append_left _ there
  · cases same.symm.trans equal

end Heap

namespace Machine

variable {m : Machine} {pins : List Value} {s : Handle} {o : Object}

def write (m : Machine) (h : Handle) (pages : List Value) : Machine :=
  { m with heap := m.heap.modify h fun _ => .book pages.toArray }

/-- A closed machine where the pins are these and a slot is secluded. -/
structure Intact (pins : List Value) (s : Handle) (o : Object) (m : Machine) : Prop where
  closed : m.Closed
  pinned : m.pinned = pins
  secluded : m.Secluded s o

theorem Intact.write {before : Array Value} {pages : List Value}
    (intact : m.Intact pins s (.book before))
    (known : ∀ v ∈ pages, m.heap.Refers v ∧ v.Avoids s) :
    (m.write s pages).Intact pins s (.book pages.toArray) where
  closed := intact.closed.modify (f := fun _ => .book pages.toArray) intact.secluded.used .book
    fun v member => (known v (by simpa [Object.links] using member)).1
  pinned := intact.pinned
  secluded :=
    { intact.secluded with
      tidy := intact.secluded.tidy.modify s _
      used := by
        change (m.heap.modify s _).get? s = _
        rw [Heap.get?_modify, if_pos rfl, intact.secluded.used]
        rfl
      objects := by
        intro k p used v member
        change (m.heap.modify s _).get? k = _ at used
        rw [Heap.get?_modify] at used
        split at used
        · obtain ⟨_, _, rfl⟩ := Option.map_eq_some_iff.mp used
          exact (known v (by simpa [Object.links] using member)).2
        · exact intact.secluded.objects k p used v member }

/-- What the pages of a secluded book are known for. -/
theorem Intact.page {pages : Array Value} (intact : m.Intact pins s (.book pages)) {v : Value}
    (member : v ∈ pages) : m.heap.Refers v ∧ v.Avoids s := by
  have inside : v ∈ (Object.book pages).links := Array.mem_toList_iff.mpr member
  exact ⟨intact.closed.heap s _ intact.secluded.used v inside,
    intact.secluded.objects s _ intact.secluded.used v inside⟩

end Machine

namespace Run

open Machine (Within)

variable {α : Type} {env : Env} {m m' : Machine} {pins : List Value} {s : Handle} {o : Object}

/-- A computation that keeps what the machine holds and spares the slot. -/
theorem intact_ok {c : Run α} {a : α} {Q : α → Machine → Prop} {P : α → Prop}
    (intact : m.Intact pins s o) (meets : Meets (.within False m) env c m Q)
    (spares : Spares s env c P) (done : c env m = .ok a m') :
    m'.Intact pins s o ∧ Q a m' ∧ P a := by
  have within := meets (.refl intact.closed) False.elim
  have spared := spares o m intact.secluded
  rw [done] at within spared
  obtain ⟨secluded, pinned, post⟩ := spared
  exact ⟨⟨within.1.closed, pinned.trans intact.pinned, secluded⟩, within.2.1, post⟩

/-- A new book that is pinned is secluded, and what the machine held before avoids it. -/
theorem allocate_secludes (closed : m.Closed) {target : Handle}
    (made : allocate (.book #[]) env m = .ok target m') :
    (m'.pin [.book target]).Intact (.book target :: m.pinned) target (.book #[]) ∧
      (∀ v ∈ m.links, v.Avoids target) ∧ ¬ m.heap.Reachable m.roots target := by
  have meets : Meets (.within False m) env (allocate (.book #[])) m fun h m' =>
      m.Placed (.book #[]) h m' :=
    meets_allocate (by simp [Object.genus]) (by simp [Object.links])
  have outcome := meets (.refl closed) False.elim
  rw [made] at outcome
  obtain ⟨within, placed, _⟩ := outcome
  have lost : ¬ m.heap.Reachable m.roots target := by
    intro reachable
    rw [Machine.roots_eq] at reachable
    exact (placed.kept target reachable).2 rfl
  cases same : m.heap.allocate (.book #[]) (m.links.filterMap Value.handle?) with
  | mk result heap =>
    rw [allocate_eq, same] at made
    cases result with
    | error rejected => cases made
    | ok h =>
      cases made
      obtain ⟨base, sound, first, rfl, refer⟩ :=
        Heap.allocate_fills closed.tidy closed.heap closed.links same
      have avoid : ∀ v ∈ m.links, v.Avoids target := fun v member => first.avoids (refer v member)
      have objects : ∀ h p, (base.filled target (.book #[])).get? h = some p →
          p.Avoids target := by
        intro h p used v member
        rw [Heap.get?_filled first] at used
        split at used
        · cases Option.some.inj used
          simp [Object.links] at member
        · exact first.avoids (sound h p used v member)
      have held : ∀ v ∈ [Value.book target], (base.filled target (.book #[])).Refers v := by
        intro v member
        cases List.mem_singleton.mp member
        exact Heap.refers_book.mpr placed.holds
      refine ⟨⟨within.closed.pin held, rfl, ?_⟩, avoid, lost⟩
      constructor
      case tidy => exact within.closed.tidy
      case used => exact placed.object
      case pinned => exact ⟨.book target, List.mem_cons_self .., rfl⟩
      case objects => exact objects
      case globals =>
        intro g member
        refine avoid g.2 ?_
        have global : g.2 ∈ m.program.globals.toList.map (·.2) :=
          List.mem_map_of_mem (Array.mem_toList_iff.mpr member)
        simp only [Machine.links, List.mem_append]
        exact .inl (.inl (.inl (.inl (.inl global))))
      case frames =>
        intro f member v there
        rcases List.mem_append.mp there with link | constant
        · refine avoid v ?_
          have held : v ∈ m.frames.flatMap Frame.links := List.mem_flatMap.mpr ⟨f, member, link⟩
          simp only [Machine.links, List.mem_append]
          exact .inl (.inl (.inl (.inr held)))
        · -- The constants are held by the journey of the frame.
          obtain ⟨j, used, pattern⟩ := within.closed.patterns f member
          exact objects f.journey _ used v (List.mem_flatMap.mpr ⟨f.pattern, pattern, constant⟩)
      case exception => exact avoid m.handlers.exception (by simp [Machine.links])
      case builtins =>
        exact ⟨Value.avoids_form.mp (avoid (.form m.builtins.exception) (by simp [Machine.links])),
          Value.avoids_form.mp (avoid (.form m.builtins.ioError) (by simp [Machine.links])),
          Value.avoids_imitation.mp
            (avoid (.imitation m.builtins.heapExhausted) (by simp [Machine.links]))⟩

end Run

end JourneyMachine
