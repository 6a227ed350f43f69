import JourneyMachine.Proofs.Closure.Links

/-! What running code leaves of a heap. No instruction makes a form or a journey; a journey, the
form of an imitation and the operands of a pattern helper never change, and of a form only the
values of essences and the guards do. When the guard of a field changes, nothing else may hold on to
the one that was there: only as long as none is taken from a form that is held do all the patterns
`Firm` speaks of stay. Statements that need this are made under the condition `strict`. -/

namespace JourneyMachine

def Form.guards (f : Form) : List Value :=
  f.essences.filterMap (·.guard) ++ f.matter.filterMap (·.guard)

theorem Form.guards_sub_links {f : Form} {g : Value} (member : g ∈ f.guards) : g ∈ f.links := by
  simp only [guards, links, List.mem_append, List.mem_filterMap, List.mem_flatMap,
    List.mem_cons, Option.mem_toList] at member ⊢
  rcases member with ⟨e, essence, same⟩ | ⟨m, matter, same⟩
  · exact .inl (.inl (.inl (.inl (.inl ⟨e, essence, .inr same⟩))))
  · exact .inl (.inl (.inl (.inl (.inr ⟨m, matter, same⟩))))

/-- The forms differ in the values of essences and in guards only. -/
structure Form.Alike (f after : Form) : Prop where
  name : after.name = f.name
  essences : after.essences.map (·.name) = f.essences.map (·.name)
  matter : after.matter.map (·.name) = f.matter.map (·.name)
  recollections : after.recollections = f.recollections
  changes : after.changes = f.changes
  imitate : after.imitate = f.imitate
  parents : after.parents = f.parents

namespace Form.Alike

theorem refl (f : Form) : f.Alike f := ⟨rfl, rfl, rfl, rfl, rfl, rfl, rfl⟩

theorem trans {f between after : Form} (first : f.Alike between) (second : between.Alike after) :
    f.Alike after where
  name := second.name.trans first.name
  essences := second.essences.trans first.essences
  matter := second.matter.trans first.matter
  recollections := second.recollections.trans first.recollections
  changes := second.changes.trans first.changes
  imitate := second.imitate.trans first.imitate
  parents := second.parents.trans first.parents

theorem matter_length {f after : Form} (alike : f.Alike after) :
    after.matter.length = f.matter.length := by
  simpa using congrArg List.length alike.matter

end Form.Alike

theorem map_modify {α β : Type} (f : α → α) {g : α → β} (same : ∀ a, g (f a) = g a) (l : List α)
    (i : Nat) : (l.modify i f).map g = l.map g := by
  induction l generalizing i with
  | nil => simp
  | cons a rest ih => cases i <;> simp [same, ih]

namespace Form

variable {f : Form} {i : Nat} {v : Value}

theorem alike_setEssence : f.Alike (f.setEssence i v) :=
  { Alike.refl f with essences := map_modify ({ · with value := v }) (fun _ => rfl) f.essences i }

theorem alike_setEssenceGuard : f.Alike (f.setEssenceGuard i v) :=
  { Alike.refl f with
    essences := map_modify ({ · with guard := some v }) (fun _ => rfl) f.essences i }

theorem alike_setMatterGuard : f.Alike (f.setMatterGuard i v) :=
  { Alike.refl f with matter := map_modify ({ · with guard := some v }) (fun _ => rfl) f.matter i }

theorem matterIndex?_lt {name : String} (found : f.matterIndex? name = some i) :
    i < f.matter.length :=
  (List.findIdx?_eq_some_iff_getElem.mp found).1

end Form

/-- The changes an object can undergo: those of a container's content, of the file of a scroll, and
of a form's or an imitation's fields. -/
inductive Object.Alike : Object → Object → Prop where
  | same {o : Object} : Alike o o
  | book {pages after : Array Value} : Alike (.book pages) (.book after)
  | codex {entries after : List (Value × Value)} : Alike (.codex entries) (.codex after)
  | form {f after : Form} : f.Alike after → Alike (.form f) (.form after)
  | imitation {i after : Imitation} : after.form = i.form → Alike (.imitation i) (.imitation after)
  | scroll {s after : Scroll} : Alike (.other (.scroll s)) (.other (.scroll after))

theorem Object.Alike.genus {o after : Object} (alike : Object.Alike o after) :
    after.genus = o.genus := by
  cases alike <;> rfl

theorem Object.Alike.trans {o between after : Object} (first : Object.Alike o between)
    (second : Object.Alike between after) : Object.Alike o after := by
  cases first with
  | same => exact second
  | book => cases second <;> exact .book
  | codex => cases second <;> exact .codex
  | form alike =>
    cases second with
    | same => exact .form alike
    | form next => exact .form (alike.trans next)
  | imitation form =>
    cases second with
    | same => exact .imitation form
    | imitation next => exact .imitation (next.trans form)
  | scroll => cases second <;> exact .scroll

namespace Heap

/-- The forms among the roots, and the forms of the imitations among them. -/
inductive HeldForm (roots : List Value) (heap : Heap) : Handle → Prop where
  | form {h : Handle} : .form h ∈ roots → HeldForm roots heap h
  | imitation {h : Handle} {i : Imitation} : .imitation h ∈ roots →
      heap.get? h = some (.imitation i) → HeldForm roots heap i.form

/-- The patterns that stay as long as the roots do: the roots themselves, the guards of the forms
they hold, and the operands of helpers that stay. -/
inductive Firm (roots : List Value) (heap : Heap) : Value → Prop where
  | inline {v : Value} : v.handle? = none → Firm roots heap v
  | root {v : Value} : v ∈ roots → Firm roots heap v
  | guard {h : Handle} {f : Form} {g : Value} : HeldForm roots heap h →
      heap.get? h = some (.form f) → g ∈ f.guards → Firm roots heap g
  | operand {h : Handle} {o : Other} {v : Value} : Firm roots heap (.other h) →
      heap.get? h = some (.other o) → v ∈ o.values → Firm roots heap v

section Firmness

variable {heap : Heap} {roots more : List Value} {h : Handle} {v : Value}

theorem HeldForm.mono (sub : ∀ v ∈ roots, v ∈ more) (held : HeldForm roots heap h) :
    HeldForm more heap h := by
  cases held with
  | form member => exact .form (sub _ member)
  | imitation member used => exact .imitation (sub _ member) used

theorem Firm.mono (sub : ∀ v ∈ roots, v ∈ more) (firm : Firm roots heap v) :
    Firm more heap v := by
  induction firm with
  | inline scalar => exact .inline scalar
  | root member => exact .root (sub _ member)
  | guard held used member => exact .guard (held.mono sub) used member
  | operand _ used member ih => exact .operand ih used member

theorem HeldForm.reachable (closed : heap.Closed) (refer : ∀ v ∈ roots, heap.Refers v)
    (held : HeldForm roots heap h) : heap.Reachable (roots.filterMap Value.handle?) h := by
  cases held with
  | form member => exact (refer _ member).reachable member rfl
  | @imitation k i member used =>
    have own : heap.Reachable (roots.filterMap Value.handle?) k :=
      (refer _ member).reachable member rfl
    exact closed.reachable own used (v := .form i.form) (List.mem_cons_self ..) rfl

theorem Firm.refers (closed : heap.Closed) (refer : ∀ v ∈ roots, heap.Refers v)
    (firm : Firm roots heap v) : heap.Refers v := by
  induction firm with
  | inline scalar =>
    intro h found
    rw [scalar] at found
    contradiction
  | root member => exact refer _ member
  | guard _ used member => exact closed _ _ used _ (Form.guards_sub_links member)
  | operand _ used member _ => exact closed _ _ used _ member

theorem Firm.reachable (closed : heap.Closed) (refer : ∀ v ∈ roots, heap.Refers v)
    (firm : Firm roots heap v) (found : v.handle? = some h) :
    heap.Reachable (roots.filterMap Value.handle?) h := by
  induction firm generalizing h with
  | inline scalar =>
    rw [scalar] at found
    contradiction
  | root member => exact (refer _ member).reachable member found
  | guard held used member =>
    exact closed.reachable (held.reachable closed refer) used (Form.guards_sub_links member) found
  | operand _ used member ih => exact closed.reachable (ih rfl) used member found

end Firmness

/-- What becomes of a heap while computations hold the roots. -/
structure Evolves (strict : Prop) (roots : List Value) (old new : Heap) : Prop where
  capacity : new.capacity = old.capacity
  journeys : ∀ h j, new.get? h = some (.journey j) → old.get? h = some (.journey j)
  forms : ∀ h f, new.get? h = some (.form f) →
    ∃ before, old.get? h = some (.form before) ∧ before.Alike f
  imitations : ∀ h i, .imitation h ∈ roots → old.get? h = some (.imitation i) →
    ∃ after, new.get? h = some (.imitation after) ∧ after.form = i.form
  guards : strict → ∀ h f, HeldForm roots old h → old.get? h = some (.form f) →
    ∃ after, new.get? h = some (.form after) ∧ ∀ g ∈ f.guards, g.handle? ≠ none → g ∈ after.guards
  others : strict → ∀ h o, Firm roots old (.other h) → old.get? h = some (.other o) →
    ∃ after, new.get? h = some (.other after) ∧ after.values = o.values

namespace Evolves

variable {strict : Prop} {roots more : List Value} {old mid new : Heap}

theorem heldForm (evolves : Evolves strict roots old new) {h : Handle}
    (held : HeldForm roots old h) : HeldForm roots new h := by
  cases held with
  | form member => exact .form member
  | imitation member used =>
    obtain ⟨after, there, same⟩ := evolves.imitations _ _ member used
    rw [← same]
    exact .imitation member there

theorem firm (evolves : Evolves strict roots old new) (assumed : strict) {v : Value}
    (firm : Firm roots old v) : Firm roots new v := by
  induction firm with
  | inline scalar => exact .inline scalar
  | root member => exact .root member
  | @guard h f g held used member =>
    obtain ⟨after, there, kept⟩ := evolves.guards assumed _ _ held used
    by_cases scalar : g.handle? = none
    · exact .inline scalar
    · exact .guard (evolves.heldForm held) there (kept g member scalar)
  | @operand h o v helper used member ih =>
    obtain ⟨after, there, same⟩ := evolves.others assumed _ _ helper used
    exact .operand ih there (same ▸ member)

theorem relaxed (evolves : Evolves strict roots old new) : Evolves False roots old new where
  capacity := evolves.capacity
  journeys := evolves.journeys
  forms := evolves.forms
  imitations := evolves.imitations
  guards := False.elim
  others := False.elim

theorem refl : Evolves strict roots old old where
  capacity := rfl
  journeys _ _ used := used
  forms _ f used := ⟨f, used, .refl f⟩
  imitations _ i _ used := ⟨i, used, rfl⟩
  guards _ _ f _ used := ⟨f, used, fun _ member _ => member⟩
  others _ _ o _ used := ⟨o, used, rfl⟩

theorem trans (first : Evolves strict roots old mid) (second : Evolves strict roots mid new) :
    Evolves strict roots old new where
  capacity := second.capacity.trans first.capacity
  journeys h j used := first.journeys h j (second.journeys h j used)
  forms h f used := by
    obtain ⟨between, there, same⟩ := second.forms h f used
    obtain ⟨before, start, equal⟩ := first.forms h between there
    exact ⟨before, start, equal.trans same⟩
  imitations h i member used := by
    obtain ⟨between, there, same⟩ := first.imitations h i member used
    obtain ⟨after, final, equal⟩ := second.imitations h between member there
    exact ⟨after, final, equal.trans same⟩
  guards assumed h f held used := by
    obtain ⟨between, there, kept⟩ := first.guards assumed h f held used
    obtain ⟨after, final, still⟩ :=
      second.guards assumed h between (first.heldForm held) there
    exact ⟨after, final, fun g member inHeap => still g (kept g member inHeap) inHeap⟩
  others assumed h o firm used := by
    obtain ⟨between, there, same⟩ := first.others assumed h o firm used
    obtain ⟨after, final, equal⟩ := second.others assumed h between (first.firm assumed firm) there
    exact ⟨after, final, equal.trans same⟩

theorem mono (sub : ∀ v ∈ roots, v ∈ more) (evolves : Evolves strict more old new) :
    Evolves strict roots old new where
  capacity := evolves.capacity
  journeys := evolves.journeys
  forms := evolves.forms
  imitations h i member used := evolves.imitations h i (sub _ member) used
  guards assumed h f held used := evolves.guards assumed h f (held.mono sub) used
  others assumed h o firm used := evolves.others assumed h o (firm.mono sub) used

/-- A journey that is still there is the one that was there. -/
theorem journey (evolves : Evolves strict roots old new) {h : Handle} {j : Journey}
    (before : old.get? h = some (.journey j)) (holds : new.Holds .journey h) :
    new.get? h = some (.journey j) := by
  obtain ⟨o, used, genus⟩ := holds
  cases o <;> simp only [Object.genus, reduceCtorEq] at genus
  rename_i k
  cases Option.some.inj ((evolves.journeys h k used).symm.trans before)
  exact used

/-- A form that is still there has as many matter fields as it had. -/
theorem matter (evolves : Evolves strict roots old new) {h : Handle} {f : Form}
    (before : old.get? h = some (.form f)) (holds : new.Holds .form h) :
    ∃ after, new.get? h = some (.form after) ∧ after.matter.length = f.matter.length := by
  obtain ⟨o, used, genus⟩ := holds
  cases o <;> simp only [Object.genus, reduceCtorEq] at genus
  rename_i after
  obtain ⟨start, there, alike⟩ := evolves.forms h after used
  cases Option.some.inj (there.symm.trans before)
  exact ⟨after, used, alike.matter_length⟩

/-- The constructor of a form that is still there is the one it had. -/
theorem constructor (evolves : Evolves strict roots old new) (closed : new.Closed) {h c : Handle}
    {f : Form} (before : old.get? h = some (.form f)) (constructed : f.imitate = some c)
    (holds : new.Holds .form h) : new.Holds .journey c := by
  obtain ⟨o, used, genus⟩ := holds
  cases o <;> simp only [Object.genus, reduceCtorEq] at genus
  rename_i after
  obtain ⟨start, there, alike⟩ := evolves.forms h after used
  cases Option.some.inj (there.symm.trans before)
  refine (refers_journey).mp (closed h _ used (.journey c) ?_)
  simp [Object.links, Form.links, alike.imitate, constructed]

/-- What the roots lead to is left alone, and what is new is neither a form nor a journey. -/
theorem of_kept (closed : old.Closed) (refer : ∀ v ∈ roots, old.Refers v)
    (capacity : new.capacity = old.capacity)
    (kept : ∀ h, old.Reachable (roots.filterMap Value.handle?) h → new.get? h = old.get? h)
    (made : ∀ h o, new.get? h = some o →
      old.get? h = some o ∨ (o.genus ≠ .form ∧ o.genus ≠ .journey)) :
    Evolves strict roots old new where
  capacity := capacity
  journeys h _ used := (made h _ used).resolve_right fun other => other.2 rfl
  forms h f used := ⟨f, (made h _ used).resolve_right fun other => other.1 rfl, .refl f⟩
  imitations h i member used :=
    ⟨i, (kept h ((refer _ member).reachable member rfl)).trans used, rfl⟩
  guards _ h f held used :=
    ⟨f, (kept h (held.reachable closed refer)).trans used, fun _ member _ => member⟩
  others _ h o firm used :=
    ⟨o, (kept h (firm.reachable closed refer rfl)).trans used, rfl⟩

/-- An object changes in place; a form among the roots keeps its guards. -/
theorem modify {h : Handle} {f : Object → Object}
    (alike : ∀ o, old.get? h = some o → Object.Alike o (f o))
    (kept : strict → HeldForm roots old h → ∀ form after, old.get? h = some (.form form) →
      f (.form form) = .form after → ∀ g ∈ form.guards, g.handle? ≠ none → g ∈ after.guards) :
    Evolves strict roots old (old.modify h f) where
  capacity := capacity_modify
  journeys k j used := by
    rw [get?_modify] at used
    split at used
    · rename_i same
      -- An object is alike only to one of its genus, so a journey here was there before.
      obtain ⟨o, there, changed⟩ := Option.map_eq_some_iff.mp used
      have like := alike o there
      rw [changed] at like
      cases like
      rw [same, there]
    · exact used
  forms k form used := by
    rw [get?_modify] at used
    split at used
    · rename_i same
      obtain ⟨o, there, changed⟩ := Option.map_eq_some_iff.mp used
      have like := alike o there
      rw [changed] at like
      rw [same]
      cases like with
      | same => exact ⟨form, there, .refl form⟩
      | form alike => exact ⟨_, there, alike⟩
    · exact ⟨form, used, .refl form⟩
  imitations k i _ used := by
    rw [get?_modify]
    split
    · rename_i same
      subst same
      have like := alike _ used
      rw [used, Option.map_some]
      generalize f (.imitation i) = after at like ⊢
      cases like with
      | same => exact ⟨i, rfl, rfl⟩
      | imitation form => exact ⟨_, rfl, form⟩
    · exact ⟨i, used, rfl⟩
  guards assumed k form held used := by
    rw [get?_modify]
    split
    · rename_i same
      subst same
      have like := alike _ used
      have keeps := kept assumed held form
      rw [used, Option.map_some]
      generalize f (.form form) = after at like keeps ⊢
      cases like with
      | same => exact ⟨form, rfl, fun _ member _ => member⟩
      | form _ => exact ⟨_, rfl, keeps _ used rfl⟩
    · exact ⟨form, used, fun _ member _ => member⟩
  others _ k o _ used := by
    rw [get?_modify]
    split
    · rename_i same
      subst same
      have like := alike _ used
      rw [used, Option.map_some]
      generalize f (.other o) = after at like ⊢
      cases like with
      | same => exact ⟨o, rfl, rfl⟩
      | scroll => exact ⟨_, rfl, rfl⟩
    · exact ⟨o, used, rfl⟩

end Evolves

end Heap

end JourneyMachine
