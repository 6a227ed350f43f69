import JourneyMachine.Proofs.Attributes.Lineage
import JourneyMachine.Proofs.Closure.Evolution

namespace JourneyMachine

namespace Heap

variable {heap after : Heap} {h k : Handle} {name : String} {v : Value}

/-- The first field of that name that the form of a value declares for it: its position and guard. -/
def field? (heap : Heap) (v : Value) (name : String) : Option (Nat × Option Value) :=
  match v with
  | .form h => ((heap.get? h).bind Object.form?).bind fun f =>
    (f.essenceIndex? name).map fun i => (i, f.essences[i]?.bind (·.guard))
  | .imitation h => ((heap.get? h).bind Object.imitation?).bind fun im =>
    ((heap.get? im.form).bind Object.form?).bind fun f =>
      (f.matterIndex? name).map fun i => (i, f.matter[i]?.bind (·.guard))
  | _ => none

theorem field?_form {f : Form} (used : heap.get? h = some (.form f)) : heap.field? (.form h) name =
    (f.essenceIndex? name).map fun i => (i, f.essences[i]?.bind (·.guard)) := by
  simp only [field?, used, Object.form?, Option.bind_some]

theorem field?_imitation {im : Imitation} {f : Form} (used : heap.get? h = some (.imitation im))
    (own : heap.get? im.form = some (.form f)) : heap.field? (.imitation h) name =
    (f.matterIndex? name).map fun i => (i, f.matter[i]?.bind (·.guard)) := by
  simp only [field?, used, own, Object.imitation?, Object.form?, Option.bind_some]

/-- A recollection of a form, or a change of the form of an imitation or of an ancestor, has that
name. -/
inductive Shadowed (heap : Heap) (name : String) : Value → Prop
  | recollection {h k : Handle} {f : Form} {j : Journey} : heap.get? h = some (.form f) →
      k ∈ f.recollections → heap.get? k = some (.journey j) → j.name = name →
      Shadowed heap name (.form h)
  | change {h k g : Handle} {im : Imitation} {f : Form} {j : Journey} :
      heap.get? h = some (.imitation im) → heap.Descends im.form g → heap.get? g = some (.form f) →
      k ∈ f.changes → heap.get? k = some (.journey j) → j.name = name →
      Shadowed heap name (.imitation h)

theorem named?_eq_none {journeys : List Handle}
    (other : ∀ k ∈ journeys, ∀ j, heap.get? k = some (.journey j) → j.name ≠ name) :
    heap.named? name journeys = none := by
  rw [named?, List.find?_eq_none]
  intro k member
  cases used : heap.get? k with
  | none => simp
  | some o =>
    cases o with
    | journey j => simpa [Object.journey?] using other k member j used
    | text | book | codex | imitation | form | other => simp [Object.journey?]

theorem ownAttribute?_essence {f : Form} {e : Essence} (used : heap.get? h = some (.form f))
    (journeys : ∀ k ∈ f.recollections, ∃ j, heap.get? k = some (.journey j) ∧ j.name ≠ name)
    (found : f.essences.find? (·.name == name) = some e) :
    heap.ownAttribute? name h = .ok (some e.value) := by
  have form : heap.form h = .ok f := read_some used rfl
  have holds : ∀ k ∈ f.recollections, heap.Holds .journey k := by
    intro k member
    obtain ⟨j, there, _⟩ := journeys k member
    exact ⟨_, there, rfl⟩
  have unnamed : heap.named? name f.recollections = none := by
    apply named?_eq_none
    intro k member j there
    obtain ⟨_, same, other⟩ := journeys k member
    cases same.symm.trans there
    exact other
  rw [ownAttribute?, form]
  show (heap.journeyNamed? name f.recollections >>= _) = _
  rw [journeyNamed?_ok name holds, unnamed]
  show Except.ok ((f.essences.find? (·.name == name)).map (·.value)) = _
  rw [found]
  rfl

/-- An imitation that no change shadows is searched for one in vain. -/
theorem change?_unshadowed (closed : heap.Closed) {im : Imitation}
    (used : heap.get? h = some (.imitation im))
    (acyclic : Acyclic heap.Parent (.form im.form)) (open' : ¬ heap.Shadowed name (.imitation h)) :
    heap.change? im.form name = .ok none := by
  have bounded : ∀ k ∈ [im.form], heap.Bounded heap.chainRoom k := by simp [Bounded.room acyclic]
  obtain ⟨order, lineage⟩ := exists_lineage _ [im.form] bounded
  have above : ∀ k ∈ order, heap.Descends im.form k := by
    intro k member
    simpa using lineage.mem_iff.mp member
  have own : heap.Refers (.form im.form) := (refers_form).mpr (closed.own used)
  -- The search goes through the lineage of the form, and none of it declares such a change.
  have searched : heap.change? im.form name = order.findSomeM? (heap.ownChange? name) :=
    (climbs_change name).root lineage acyclic
  rw [searched, findSomeM?_ok fun k member => (closed.whole own (above k member)).ownChange?]
  congr 1
  rw [List.findSome?_eq_none_iff]
  intro k member
  cases found : (heap.get? k).bind Object.form? with
  | none => simp [changeIn?, found]
  | some f =>
    have there : heap.get? k = some (.form f) := by
      obtain ⟨o, used, same⟩ := Option.bind_eq_some_iff.mp found
      cases o <;> cases same
      exact used
    simp only [changeIn?, found, Option.bind_some]
    apply named?_eq_none
    rintro c change j journey rfl
    exact open' (.change used (above k member) there change journey rfl)

theorem typeName_ok (closed : heap.Closed) (refers : heap.Refers v) :
    ∃ type, heap.typeName v = .ok type := by
  cases v with
  | imitation h =>
    obtain ⟨o, used, genus⟩ := (refers_imitation).mp refers
    cases o <;> try contradiction
    rename_i im
    obtain ⟨o, own, genus⟩ := closed.own used
    cases o <;> try contradiction
    rename_i f
    refine ⟨f.name, ?_⟩
    have first : heap.imitation h = .ok im := by simp [imitation, read, used, Object.imitation?]
    have second : heap.form im.form = .ok f := by simp [form, read, own, Object.form?]
    rw [typeName, first]
    exact congrArg (fun x => x >>= fun f => pure f.name) second
  | ni | veracity | numeral | text | form | journey | book | codex | other => exact ⟨_, rfl⟩

/-- Changes are looked up in forms and journeys only. -/
theorem change?_congr (form : ∀ k, after.form k = heap.form k)
    (journey : ∀ k, after.journey k = heap.journey k) (capacity : after.capacity = heap.capacity)
    (own : Handle) (name : String) : after.change? own name = heap.change? own name := by
  have named : ∀ journeys, after.journeyNamed? name journeys = heap.journeyNamed? name journeys := by
    intro journeys
    simp only [journeyNamed?, journey]
  have within : ∀ room own, after.changeWithin name room own = heap.changeWithin name room own := by
    intro room
    induction room with
    | zero => exact fun _ => rfl
    | succ room ih =>
      intro own
      have same : after.changeWithin name room = heap.changeWithin name room := funext ih
      simp only [changeWithin, form, named, same]
  rw [change?, change?, chainRoom, chainRoom, capacity, within]

section Evolving

variable {roots : List Value} {f f' : Form} {i : Nat}

theorem essenceIndex?_alike (alike : f.Alike f') : f'.essenceIndex? name = f.essenceIndex? name := by
  have names := congrArg (List.findIdx? (· == name)) alike.essences
  rw [List.findIdx?_map, List.findIdx?_map] at names
  exact names

theorem matterIndex?_alike (alike : f.Alike f') : f'.matterIndex? name = f.matterIndex? name := by
  have names := congrArg (List.findIdx? (· == name)) alike.matter
  rw [List.findIdx?_map, List.findIdx?_map] at names
  exact names

theorem Evolves.parent (evolves : Evolves False roots heap after) :
    ∀ a b, after.Parent a b → heap.Parent a b := by
  rintro _ _ ⟨used, member⟩
  obtain ⟨f, before, alike⟩ := evolves.forms _ _ used
  rw [alike.parents] at member
  exact .parent before member

theorem Evolves.descends (evolves : Evolves False roots heap after)
    (descends : after.Descends h k) : heap.Descends h k :=
  Relation.ReflTransGen.mono evolves.parent _ _ descends

theorem Evolves.acyclic (evolves : Evolves False roots heap after)
    (acyclic : Acyclic heap.Parent v) : Acyclic after.Parent v := by
  intro w inside circle
  exact acyclic w (Relation.ReflTransGen.mono evolves.parent _ _ inside)
    (Relation.TransGen.mono evolves.parent _ _ circle)

theorem Evolves.form (evolves : Evolves False roots heap after)
    (used : heap.get? h = some (.form f)) (receiver : after.Refers (.form h)) :
    ∃ f', after.get? h = some (.form f') ∧ f.Alike f' := by
  obtain ⟨o, there, genus⟩ := (refers_form).mp receiver
  cases o <;> try contradiction
  obtain ⟨_, before, alike⟩ := evolves.forms _ _ there
  cases used.symm.trans before
  exact ⟨_, there, alike⟩

theorem Evolves.imitation (evolves : Evolves False [.imitation h] heap after) {im : Imitation}
    (used : heap.get? h = some (.imitation im)) :
    ∃ im', after.get? h = some (.imitation im') ∧ im'.form = im.form :=
  evolves.imitations _ _ (List.mem_singleton_self _) used

/-- What shadows a value shadowed it before. -/
theorem Evolves.shadowed (evolves : Evolves False [v] heap after) (receiver : heap.Refers v)
    (shadowed : after.Shadowed name v) : heap.Shadowed name v := by
  cases shadowed with
  | recollection used member journey same =>
    obtain ⟨f, before, alike⟩ := evolves.forms _ _ used
    rw [alike.recollections] at member
    exact .recollection before member (evolves.journeys _ _ journey) same
  | change used descends form member journey same =>
    obtain ⟨o, before, genus⟩ := (refers_imitation).mp receiver
    cases o <;> try contradiction
    obtain ⟨im, there, own⟩ := evolves.imitation before
    cases used.symm.trans there
    obtain ⟨f, first, alike⟩ := evolves.forms _ _ form
    rw [alike.changes] at member
    have above := evolves.descends descends
    rw [own] at above
    exact .change before above first member (evolves.journeys _ _ journey) same

end Evolving

end Heap

end JourneyMachine
