import JourneyMachine.Proofs.Closure.Links

namespace JourneyMachine

namespace Run

variable {m : Machine}

/-- A machine with these objects, none of which is rooted. -/
def bare (objects : List Object) : Machine where
  heap.arena :=
    { slots := (objects.map (.holding · 0)).toArray
      cursor := objects.length
      live := objects.length
      births := objects.length }
  handlers := { limit := 0 }
  builtins := ⟨⟨objects.length⟩, ⟨objects.length⟩, ⟨objects.length⟩⟩
  random := .seeded 7

theorem bare_get (objects : List Object) (h : Handle) :
    (bare objects).heap.get? h = objects[h.slot]? := by
  simp only [bare, Heap.get?, Arena.get?, List.getElem?_toArray, List.getElem?_map]
  cases objects[h.slot]? <;> rfl

theorem bare_tidy (objects : List Object) : (bare objects).heap.Tidy := by
  have fresh : ∀ h c, (bare objects).heap.arena.cell? h = some c →
      h.slot < objects.length ∧ c.marked = false ∧ c.born = 0 := by
    intro h c used
    simp only [bare, Arena.cell?, Arena.cellAt, List.getElem?_toArray, List.getElem?_map] at used
    cases found : objects[h.slot]? with
    | none => simp [found] at used
    | some o =>
      rw [found] at used
      cases used
      exact ⟨(List.getElem?_eq_some_iff.mp found).1, rfl, rfl⟩
  constructor
  · intro i slot there
    simp only [bare, List.getElem?_toArray, List.getElem?_map, Option.map_eq_some_iff] at there
    obtain ⟨o, _, rfl⟩ := there
    exact Slot.paired_holding o 0
  · exact fun h c used => (fresh h c used).2.1
  · intro i below
    exact ⟨_, (bare_get objects ⟨i⟩).trans (List.getElem?_eq_getElem below)⟩
  · intro h c used
    obtain ⟨below, _, born⟩ := fresh h c used
    rw [born]
    exact Nat.lt_of_le_of_lt (Nat.zero_le _) below

theorem bare_refers {objects : List Object} {v : Value}
    (there : ∀ h ∈ v.handle?, ∃ o ∈ objects[h.slot]?, o.genus = v.genus) :
    (bare objects).heap.Refers v := by
  intro h found
  obtain ⟨o, used, genus⟩ := there h found
  exact ⟨o, (bare_get objects h).trans used, genus⟩

/-- Which references a heap has to objects of which genus can be computed from its objects. -/
theorem bare_heap_closed {objects : List Object} (refer : ∀ v ∈ objects.flatMap Object.links,
    ∀ h ∈ v.handle?, ∃ o ∈ objects[h.slot]?, o.genus = v.genus) : (bare objects).heap.Closed := by
  intro h o used v member
  rw [bare_get] at used
  exact bare_refers (refer v (List.mem_flatMap.mpr ⟨o, List.mem_of_getElem? used, member⟩))

theorem bare_closed {objects : List Object} (heap : m.heap = (bare objects).heap)
    (frames : m.frames = [])
    (refer : ∀ v ∈ objects.flatMap Object.links ++ m.links, ∀ h ∈ v.handle?,
      ∃ o ∈ objects[h.slot]?, o.genus = v.genus) : m.Closed where
  tidy := heap ▸ bare_tidy objects
  heap := heap ▸ bare_heap_closed fun v member => refer v (List.mem_append_left _ member)
  links v member := heap ▸ bare_refers (refer v (List.mem_append_right _ member))
  patterns := by
    rw [frames]
    exact fun _ member => absurd member List.not_mem_nil

end Run

end JourneyMachine
