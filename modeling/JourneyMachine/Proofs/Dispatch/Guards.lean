import JourneyMachine.Proofs.Code.Operands

namespace JourneyMachine

open Machine (Binding)
open Dispatch

namespace Heap

/-- A text that spells the name of a genus. -/
def Names (heap : Heap) (g : Genus) (v : Value) : Prop :=
  ∃ h, v = .text h ∧ heap.get? h = some (.text g.name)

/-- What a guard of that name lets through. -/
def Passes (heap : Heap) (g : Genus) (v : Value) : Prop := v.genus = g ∨ heap.Names g v

/-- The guard of the field that an assignment to an attribute changes. -/
def fieldGuard? (heap : Heap) (v : Value) (name : String) : Option Value :=
  match v with
  | .form h =>
    match heap.get? h with
    | some (.form f) => (f.essenceIndex? name).bind fun i => f.essences[i]?.bind (·.guard)
    | _ => none
  | .imitation h =>
    match heap.get? h with
    | some (.imitation i) =>
      match heap.get? i.form with
      | some (.form f) => (f.matterIndex? name).bind fun i => f.matter[i]?.bind (·.guard)
      | _ => none
    | _ => none
  | _ => none

theorem passes_iff {heap : Heap} {g : Genus} {v : Value} (apart : heap.Names g v → g = .text) :
    heap.Passes g v ↔ v.genus = g := by
  constructor
  · rintro (same | named)
    · exact same
    · have text := apart named
      obtain ⟨h, rfl, _⟩ := named
      exact text.symm
  · exact .inl

theorem text_eq_ok {heap : Heap} {h : Handle} {content : String} :
    heap.text h = .ok content ↔ heap.get? h = some (.text content) := by
  constructor
  · exact text_ok
  · intro used
    exact read_some used rfl

end Heap

namespace Run

variable {env : Env} {m m' : Machine} {g : Genus} {guard c v new : Value} {name : String}
  {h : Handle}

section Matching

theorem text_ok_iff {content : String} :
    text h env m = .ok content m' ↔ m.heap.get? h = some (.text content) ∧ m = m' := by
  rw [text, onHeap_eq_ok, Heap.text_eq_ok]

/-- A text is equal to the texts of its spelling and to nothing else. -/
theorem eql_spelled {content : String} (used : m.heap.get? h = some (.text content)) :
    eql (.text h) c env m = .ok true m' ↔
      m = m' ∧ ∃ r, c = .text r ∧ m.heap.get? r = some (.text content) := by
  have here : eql (.text h) c env m = eqlWithin (env.depth + comparisonRoom m.heap.capacity + 1)
    [] (.text h) c env m := rfl
  rw [here]
  cases c with
  | text r =>
    simp only [eqlWithin, Value.text.injEq, exists_eq_left']
    split
    · rename_i equal
      simp [← equal, used, pure_eq_ok]
    · simp only [bind_eq_ok, pure_eq_ok, text_ok_iff, decide_eq_true_eq, used]
      constructor
      · rintro ⟨left, _, ⟨⟨rfl⟩, rfl⟩, right, _, ⟨found, rfl⟩, rfl, rfl⟩
        exact ⟨rfl, found⟩
      · rintro ⟨rfl, found⟩
        exact ⟨content, m, ⟨rfl, rfl⟩, content, m, ⟨found, rfl⟩, rfl, rfl⟩
  | _ => simp [eqlWithin, pure_eq_ok]

theorem eql_text_ends {content : String} (used : m.heap.get? h = some (.text content))
    (live : m.heap.Refers c) : ∃ same, eql (.text h) c env m = .ok same m := by
  have here : eql (.text h) c env m = eqlWithin (env.depth + comparisonRoom m.heap.capacity + 1)
    [] (.text h) c env m := rfl
  rw [here]
  cases c with
  | text r =>
    obtain ⟨o, found, genus⟩ := (Heap.refers_text).mp live
    cases o <;> try contradiction
    rename_i other
    simp only [eqlWithin]
    split
    · exact ⟨true, rfl⟩
    · refine ⟨decide (content = other), ?_⟩
      simp only [bind_eq_ok, pure_eq_ok, text_ok_iff]
      exact ⟨content, m, ⟨used, rfl⟩, other, m, ⟨found, rfl⟩, rfl, rfl⟩
  | _ => exact ⟨false, rfl⟩

theorem fits_named (asked : g ≠ .other) (used : m.heap.get? h = some (.text g.name)) :
    fits (.text h) c env m = (if c.genus = g then pure true else eql (.text h) c : Run Bool) env m := by
  have read : text h env m = .ok g.name m := (text_ok_iff).mpr ⟨used, rfl⟩
  have here : fits (.text h) c env m = matchesWithin
    (env.depth + matchingRoom m.heap.capacity + 1) [] (.text h) c env m := rfl
  rw [here, matchesWithin, bind_ok read]
  simp only [Genus.ofName?_name, asked, ne_eq, not_false_eq_true, true_and]

/-- A guard that names a genus lets exactly the values of the genus and the texts of its own
spelling through. -/
theorem fits_named_iff (asked : g ≠ .other) (named : m.heap.Names g guard) :
    fits guard c env m = .ok true m' ↔ m = m' ∧ m.heap.Passes g c := by
  obtain ⟨h, rfl, used⟩ := named
  rw [fits_named asked used]
  split
  · rename_i same
    simp [Heap.Passes, same, pure_eq_ok]
  · rename_i other
    rw [eql_spelled used]
    simp [Heap.Passes, Heap.Names, other]

theorem fits_named_ends (asked : g ≠ .other) (named : m.heap.Names g guard)
    (live : m.heap.Refers c) : ∃ same, fits guard c env m = .ok same m := by
  obtain ⟨h, rfl, used⟩ := named
  rw [fits_named asked used]
  split
  · exact ⟨true, rfl⟩
  · exact eql_text_ends used live

end Matching

section Assignment

/-- An assignment that a guard has not stopped has tested the guard on the new value. -/
theorem checkGuard_passed {owner field : String}
    (done : checkGuard (some guard) new owner field env m = .ok () m') :
    ∃ after, fits guard new env (m.pin [new]) = .ok true after := by
  obtain ⟨same, m₁, tested, rest⟩ := (bind_eq_ok).mp done
  cases same with
  | true =>
    obtain ⟨after, fit, _⟩ := (withPinned_eq_ok).mp tested
    exact ⟨after, fit⟩
  | false =>
    have never : Fruitless env (do complain (.fieldGenus (← typeName new) field owner) : Run Unit) :=
      .bind fun _ => fruitless_complain
    exact (never _ _ _ rest).elim

/-- An assignment takes what the guard of the field lets through. -/
theorem setAttribute_passed (asked : g ≠ .other)
    (guarded : m.heap.fieldGuard? v name = some guard) (named : m.heap.Names g guard)
    (done : setAttribute v name new env m = .ok true m') : m.heap.Passes g new := by
  -- Forms and imitations both test the guard before they store.
  have passes : ∀ owner field m₁, checkGuard (some guard) new owner field env m = .ok () m₁ →
      m.heap.Passes g new := by
    intro owner field m₁ checked
    obtain ⟨after, fit⟩ := checkGuard_passed checked
    exact ((fits_named_iff asked (m := m.pin [new]) named).mp fit).2
  unfold Heap.fieldGuard? at guarded
  split at guarded
  · rename_i h
    split at guarded
    · rename_i f used
      obtain ⟨i, index, found⟩ := Option.bind_eq_some_iff.mp guarded
      simp only [setAttribute, bind_ok (read_form used), index, found] at done
      obtain ⟨_, m₁, checked, _⟩ := (bind_eq_ok).mp done
      exact passes _ _ _ checked
    · contradiction
  · rename_i h
    split at guarded
    · rename_i im used
      split at guarded
      · rename_i f own
        obtain ⟨i, index, found⟩ := Option.bind_eq_some_iff.mp guarded
        simp only [setAttribute, bind_ok (read_imitation used), bind_ok (read_form own), index,
          found] at done
        obtain ⟨_, m₁, checked, _⟩ := (bind_eq_ok).mp done
        exact passes _ _ _ checked
      · contradiction
    · contradiction
  · contradiction

end Assignment

section Construction

/-- The guard of a field is tested in the machine that the guards of the fields before it leave. -/
theorem checkFields_passed {fields : List Matter} {values : List Value} {i : Nat} {q : Matter}
    (done : checkFields name fields values env m = .ok () m') (field : fields[i]? = some q)
    (given : values[i]? = some v) (guarded : q.guard = some guard) :
    ∃ tested after, checkFields name (fields.take i) (values.take i) env m = .ok () tested ∧
      fits guard v env tested = .ok true after := by
  -- On the fields before the one in question, whose guards let their values through.
  induction fields generalizing values i m with
  | nil => simp at field
  | cons first rest ih =>
    cases values with
    | nil => simp at given
    | cons w values =>
      cases i with
      | zero =>
        simp only [List.getElem?_cons_zero, Option.some.injEq] at field given
        subst field given
        simp only [checkFields, guarded] at done
        obtain ⟨same, after, fit, left⟩ := (bind_eq_ok).mp done
        cases same with
        | true => exact ⟨m, after, rfl, fit⟩
        | false => exact (fruitless_complain _ _ _ left).elim
      | succ i =>
        simp only [List.getElem?_cons_succ] at field given
        simp only [List.take_succ_cons]
        cases code : first.guard with
        | none =>
          simp only [checkFields, code] at done ⊢
          exact ih done field given
        | some start =>
          simp only [checkFields, code] at done ⊢
          obtain ⟨same, m₁, fit, left⟩ := (bind_eq_ok).mp done
          cases same with
          | true =>
            obtain ⟨tested, after, checked, passed⟩ := ih left field given
            exact ⟨tested, after, (bind_ok fit).trans checked, passed⟩
          | false => exact (fruitless_complain _ _ _ left).elim

/-- Without a constructor an imitation is made of arguments that were tested one after the other. -/
theorem imitate_checked {f : Form} {args : Arguments} (used : m.heap.get? h = some (.form f))
    (plain : f.imitate = none) (done : imitate evaluate h args env m = .ok v m') :
    args.positional.length = f.matter.length ∧
      ∃ checked, checkFields f.name f.matter args.positional env m = .ok () checked := by
  simp only [imitate, bind_ok (read_form used), plain] at done
  split at done
  · exact (fruitless_complain _ _ _ done).elim
  · split at done
    · exact (fruitless_complain _ _ _ done).elim
    · rename_i count
      obtain ⟨_, checked, ran, _⟩ := (bind_eq_ok).mp done
      exact ⟨not_not.mp count, checked, ran⟩

end Construction

end Run

namespace Pattern

def places (p : Pattern) : List (Parameter × Nat) :=
  p.positional.mapIdx (fun i q => (q, i)) ++
    p.keywords.mapIdx fun i q => (q, p.keywordRegister i)

end Pattern

namespace Dispatch

open Run

variable {env : Env} {registerOf : Nat → Nat} {i k start : Nat} {parameters : List Parameter}
  {m m' m₀ tested : Machine} {runs : List (Machine × Machine)} {h : Handle} {p : Pattern}
  {q : Parameter} {v guard : Value}

/-- The guard of a parameter was run, and what it gave fits the value in the register. -/
structure Admits (env : Env) (start r : Nat) (guard v : Value) (tested : Machine) : Prop where
  ran : ∃ before, evaluate start env before = .ok guard tested
  found : tested.slot? r = some v
  fit : ∃ after, withPinned [guard] (fits guard v) env tested = .ok true after

theorem Admits.passes {g : Genus} {r : Nat} (admits : Admits env start r guard v tested)
    (asked : g ≠ .other) (named : tested.heap.Names g guard) : tested.heap.Passes g v := by
  obtain ⟨after, fit⟩ := admits.fit
  obtain ⟨m₁, fit, _⟩ := (withPinned_eq_ok).mp fit
  exact ((fits_named_iff asked (m := tested.pin [guard]) named).mp fit).2

/-- The guards before a parameter, its own and those after it are tested in this order. -/
theorem Matches.split (checked : Matches env registerOf i parameters m runs m')
    (there : parameters[k]? = some q) : ∃ before after runs₁ runs₂ runs₃,
      Matches env registerOf i (parameters.take k) m runs₁ before ∧
      Matches env registerOf (i + k) [q] before runs₂ after ∧
      Matches env registerOf (i + k + 1) (parameters.drop (k + 1)) after runs₃ m' := by
  -- On the guards tested, which `k` counts off.
  induction checked generalizing k with
  | done => simp at there
  | @unguarded i first rest runs m m' none later ih =>
    cases k with
    | zero =>
      simp only [List.getElem?_cons_zero, Option.some.injEq] at there
      subst there
      exact ⟨m, m, [], [], runs, .done, .unguarded none .done, later⟩
    | succ k =>
      obtain ⟨before, after, runs₁, runs₂, runs₃, one, two, three⟩ :=
        ih (k := k) (by simpa using there)
      have shift : i + (k + 1) = i + 1 + k := by omega
      rw [shift]
      exact ⟨before, after, runs₁, runs₂, runs₃, .unguarded none one, two, three⟩
  | @guarded i start first rest guard v runs m m₁ m₂ m' has ran found fit later ih =>
    cases k with
    | zero =>
      simp only [List.getElem?_cons_zero, Option.some.injEq] at there
      subst there
      exact ⟨m, m₂, [], _, runs, .done, .guarded has ran found fit .done, later⟩
    | succ k =>
      obtain ⟨before, after, runs₁, runs₂, runs₃, one, two, three⟩ :=
        ih (k := k) (by simpa using there)
      have shift : i + (k + 1) = i + 1 + k := by omega
      rw [shift]
      exact ⟨before, after, _, runs₂, runs₃, .guarded has ran found fit one, two, three⟩

/-- Every guard among the parameters is tested, on a value that is in the register when all of them
have been if the sub-programs leave the registers alone that are bound. -/
theorem Matches.admits (checked : Matches env registerOf i parameters m runs m')
    (there : parameters[k]? = some q) (code : q.guard = some start) :
    ∃ guard v tested, Admits env start (registerOf (i + k)) guard v tested ∧
      ∀ m₀ h, env.Calls False → env.Orderly →
        (∀ q ∈ parameters, ∀ start, q.guard = some start → Modest env p start) →
        Binding m₀ h p m → registerOf (i + k) < p.boundRegisters →
        m'.slot? (registerOf (i + k)) = some v := by
  obtain ⟨before, after, runs₁, runs₂, runs₃, earlier, own, later⟩ := checked.split there
  cases own with
  | unguarded none => simp [code] at none
  | @guarded _ start' _ _ guard v _ _ tested _ _ has ran found fit done =>
    cases has.symm.trans code
    cases done
    refine ⟨guard, v, tested, ⟨⟨before, ran⟩, found, after, fit⟩, ?_⟩
    intro m₀ h calls orderly modest binding inside
    have member : q ∈ parameters := List.mem_of_getElem? there
    have known : ∀ r ∈ [q], ∀ start, r.guard = some start → Modest env p start := by
      intro r here
      rw [List.mem_singleton.mp here]
      exact modest q member
    obtain ⟨started, _⟩ :=
      earlier.same calls orderly (fun r here => modest r (List.mem_of_mem_take here)) binding
    obtain ⟨_, _, unchanged⟩ := evaluated calls (modest q member start code) started ran
    have single : Matches env registerOf (i + k) [q] before _ after :=
      .guarded code ran found fit .done
    obtain ⟨passed, same⟩ := single.same calls orderly known started
    obtain ⟨_, last⟩ :=
      later.same calls orderly (fun r here => modest r (List.mem_of_mem_drop here)) passed
    rw [last.slot _ inside, same.slot _ inside, ← unchanged _ inside, found]

/-- The machine in which the guards are tested, if the arguments were taken before. -/
theorem binding_filled {args : Arguments} {m₁ : Machine} (calls : env.Calls False)
    (orderly : env.Orderly) (modest : ∀ start ∈ p.subPrograms, Modest env p start)
    (held : ∀ v ∈ args.values, v ∈ m₀.held) (binding : Binding m₀ h p m)
    (positional : bindPositional evaluate p args.positional env m = .ok true m₁)
    (keywords : bindKeywords evaluate p args.keywords env m₁ = .ok true m') :
    Binding m₀ h p m' := by
  obtain ⟨_, vs, runs₁, m₂, splat, supplies, splats⟩ := (bindPositional_iff calls binding
    (held_positional held) (modest_fallback modest .inl)).mp positional
  obtain ⟨bound, _⟩ := positional_bound calls (modest_fallback modest .inl) (held_positional held)
    binding supplies splats
  obtain ⟨_, ws, runs₂, m₃, splatsplat, fills, splatsplats⟩ := (bindKeywords_iff calls bound
    (held_keywords held) (modest_fallback modest .inr)).mp keywords
  exact (keywords_bound calls orderly (modest_fallback modest .inr) (held_keywords held) bound fills
    splatsplats).1

/-- When a pattern was bound, each of its guards was tested on the value of its parameter, which the
body finds in the register if the sub-programs leave the registers alone that are bound. -/
theorem bindArguments_admits {args : Arguments} {r : Nat}
    (bound : bindArguments evaluate p args env m = .ok true m') (place : (q, r) ∈ p.places)
    (code : q.guard = some start) : ∃ guard v tested, Admits env start r guard v tested ∧
      ∀ m₀ h, env.Calls False → env.Orderly → (∀ start ∈ p.subPrograms, Modest env p start) →
        (∀ v ∈ args.values, v ∈ m₀.held) → Binding m₀ h p m → m'.slot? r = some v := by
  unfold bindArguments at bound
  obtain ⟨m₁, positional, rest⟩ := (unless_eq_ok).mp bound
  obtain ⟨m₂, keywords, rest⟩ := (unless_eq_ok).mp rest
  obtain ⟨m₃, first, rest⟩ := (unless_eq_ok).mp rest
  obtain ⟨m₄, second, last⟩ := (unless_eq_ok).mp rest
  obtain ⟨runs₃, matchesPositional⟩ := (checkGuards_iff).mp first
  obtain ⟨runs₄, matchesKeywords⟩ := (checkGuards_iff).mp second
  obtain ⟨runs₅, conditions⟩ := (checkCondition_iff).mp last
  rcases List.mem_append.mp place with place | place
  · obtain ⟨i, inside, same⟩ := List.mem_mapIdx.mp place
    cases same
    obtain ⟨guard, v, tested, admits, kept⟩ :=
      matchesPositional.admits (p := p) (List.getElem?_eq_getElem inside) code
    rw [Nat.zero_add, id] at admits kept
    refine ⟨guard, v, tested, admits, fun m₀ h calls orderly modest held binding => ?_⟩
    have filled := binding_filled calls orderly modest held binding positional keywords
    have below := Pattern.positional_lt inside
    obtain ⟨passed, _⟩ := matchesPositional.same calls orderly (modest_guard modest .inl) filled
    obtain ⟨done, same⟩ := matchesKeywords.same calls orderly (modest_guard modest .inr) passed
    obtain ⟨_, end₅⟩ := conditions.same calls orderly (modest_condition modest) done
    rw [end₅.slot _ below, same.slot _ below]
    exact kept m₀ h calls orderly (modest_guard modest .inl) filled below
  · obtain ⟨i, inside, same⟩ := List.mem_mapIdx.mp place
    cases same
    obtain ⟨guard, v, tested, admits, kept⟩ :=
      matchesKeywords.admits (p := p) (List.getElem?_eq_getElem inside) code
    rw [Nat.zero_add] at admits kept
    refine ⟨guard, v, tested, admits, fun m₀ h calls orderly modest held binding => ?_⟩
    have filled := binding_filled calls orderly modest held binding positional keywords
    have below := Pattern.keywordRegister_lt inside
    obtain ⟨passed, _⟩ := matchesPositional.same calls orderly (modest_guard modest .inl) filled
    obtain ⟨done, _⟩ := matchesKeywords.same calls orderly (modest_guard modest .inr) passed
    obtain ⟨_, end₅⟩ := conditions.same calls orderly (modest_condition modest) done
    rw [end₅.slot _ below]
    exact kept m₀ h calls orderly (modest_guard modest .inr) passed below

end Dispatch

namespace Machine

open Run (fits bindArguments checkFields imitate setAttribute evaluate)

/-- What guards let through that name a genus: a value that is matched, bound to a parameter, made
the matter of an imitation or assigned to a field has the genus, or else it is itself a text of the
guard's spelling. -/
theorem genus_guards {g : Genus} (asked : g ≠ .other) (depth : Nat) (m : Machine) :
    (∀ guard c, m.heap.Names g guard →
      (∀ m', fits guard c (calling depth) m = .ok true m' ↔ m = m' ∧ m.heap.Passes g c) ∧
      (m.heap.Refers c → ∃ same, fits guard c (calling depth) m = .ok same m) ∧
      ((m.heap.Names g c → g = .text) →
        (fits guard c (calling depth) m = .ok true m ↔ c.genus = g))) ∧
    (∀ p args entry q r start, bindArguments evaluate p args (calling depth) m = .ok true entry →
      (q, r) ∈ p.places → q.guard = some start → ∃ guard v tested,
        Admits (calling depth) start r guard v tested ∧
        (tested.heap.Names g guard → tested.heap.Passes g v) ∧
        ∀ (m₀ : Machine) (h : Handle) (j : Journey), m₀.Poised h args →
          m₀.heap.get? h = some (.journey j) → p ∈ j.patterns →
          (∀ start ∈ p.subPrograms, Modest (calling depth) p start) → m = m₀.enter h p →
          entry.slot? r = some v) ∧
    (∀ h f args made m' i q guard, m.heap.get? h = some (.form f) → f.imitate = none →
      imitate evaluate h args (calling depth) m = .ok made m' → f.matter[i]? = some q →
      q.guard = some guard → ∃ v tested, args.positional[i]? = some v ∧
        checkFields f.name (f.matter.take i) (args.positional.take i) (calling depth) m =
          .ok () tested ∧
        (tested.heap.Names g guard → tested.heap.Passes g v)) ∧
    ∀ v name new guard m', m.heap.fieldGuard? v name = some guard → m.heap.Names g guard →
      setAttribute v name new (calling depth) m = .ok true m' → m.heap.Passes g new := by
  refine ⟨?_, ?_, ?_, ?_⟩
  · intro guard c named
    refine ⟨fun m' => Run.fits_named_iff asked named, Run.fits_named_ends asked named, ?_⟩
    intro apart
    rw [Run.fits_named_iff asked named, Heap.passes_iff apart]
    simp
  · intro p args entry q r start bound place code
    obtain ⟨guard, v, tested, admits, kept⟩ := bindArguments_admits bound place code
    refine ⟨guard, v, tested, admits, admits.passes asked, ?_⟩
    rintro m₀ h j poised there member modest rfl
    exact kept m₀ h (callAt_calls False _ _) (callAt_orderly _ _) modest poised.held
      (.entered poised.closed poised.ordered there member)
  · intro h f args made m' i q guard used plain done field guarded
    obtain ⟨count, checked, ran⟩ := Run.imitate_checked used plain done
    have inside : i < args.positional.length := by
      rw [count]
      exact (List.getElem?_eq_some_iff.mp field).1
    obtain ⟨tested, after, before, fit⟩ :=
      Run.checkFields_passed ran field (List.getElem?_eq_getElem inside) guarded
    refine ⟨_, tested, List.getElem?_eq_getElem inside, before, fun named => ?_⟩
    exact ((Run.fits_named_iff asked named).mp fit).2
  · intro v name new guard m' guarded named done
    exact Run.setAttribute_passed asked guarded named done

/-- The pattern of a journey with two parameters that are guarded by what the first one holds. -/
def measure : Pattern where
  positional := [{ name := "t" }, { name := "a", guard := some 0 }]
  keywords := [{ name := "b", guard := some 0 }]
  start := 2
  block := { registers := 3, code := #[Opcode.ret.word, 0, Opcode.ret.word, 1] }

/-- A journey that measures, and a form whose fields take numerals only. -/
def measuring : Image where
  forms := [
    { name := "Point"
      essences := [{ name := "scale", value := .numeral 1, guard := some (.text "Numeral") }]
      matter := [{ name := "x", guard := some (.text "Numeral") }] }]
  journeys := [
    { name := "measure"
      patterns := [{
        positional := [{ name := "t" }, { name := "a", guard := some 0 }]
        keywords := [{ name := "b", guard := some 0 }]
        start := 2
        block := { registers := 3, code := measure.block.code.toList } }] }]

def point : Form where
  name := "Point"
  essences := [{ name := "scale", value := .numeral 1, guard := some (.text ⟨6⟩) }]
  matter := [{ name := "x", guard := some (.text ⟨7⟩) }]

def lengths : Arguments where
  positional := [.text ⟨6⟩, .numeral 3]
  keywords := [("b", .numeral 4)]

def answersTrue (c : Run Bool) (m : Machine) : Bool :=
  match c (calling 9) m with
  | .ok same _ => same
  | .error _ _ => false

theorem answersTrue_iff {c : Run Bool} {m : Machine} :
    answersTrue c m = true ↔ ∃ m', c (calling 9) m = .ok true m' := by
  unfold answersTrue
  cases c (calling 9) m with
  | ok same m' => simp
  | error unwind m' => simp

/-- Whether the journey and the form take numerals where a text says so. -/
def takesNumerals (m : Machine) : Bool :=
  decide (m.heap.get? ⟨6⟩ = some (.text "Numeral")) &&
  decide (m.heap.get? ⟨5⟩ = some (.journey ⟨"measure", [measure]⟩)) &&
  decide (m.heap.get? ⟨4⟩ = some (.form point)) &&
  answersTrue (bindArguments evaluate measure lengths)
    ((m.pin (.journey ⟨5⟩ :: lengths.values)).enter ⟨5⟩ measure) &&
  answersTrue (do return (← imitate evaluate ⟨4⟩ { positional := [.numeral 3] }).genus = .imitation)
    m &&
  answersTrue (setAttribute (.form ⟨4⟩) "scale" (.numeral 2)) m

theorem modest_measure (env : Env) : ∀ start ∈ measure.subPrograms, Modest env measure start := by
  intro start member
  have first : start = 0 := by simpa [measure, Pattern.subPrograms] using member
  rw [first]
  exact Run.modest_ret (r := 0) rfl rfl

theorem measuring_takes : ∃ m, Loads { heapSlots := 16 } {} measuring m ∧
    takesNumerals (m.withBudget 20) = true :=
  loads_of { heapSlots := 16 } {} measuring (fun m => takesNumerals (m.withBudget 20))
    (by decide +kernel)

/-- A machine with the journey and the form: what is bound, made and assigned has passed. -/
theorem measuring_guards : ∃ m : Machine,
    fits (.text ⟨6⟩) (.numeral 3) (calling 9) m = .ok true m ∧
    fits (.text ⟨6⟩) (.veracity true) (calling 9) m ≠ .ok true m ∧
    (∃ called entry guard v tested,
      bindArguments evaluate measure lengths (calling 9) called = .ok true entry ∧
      entry.slot? 1 = some v ∧ Admits (calling 9) 0 1 guard v tested ∧
      (tested.heap.Names .numeral guard → tested.heap.Passes .numeral v)) ∧
    (∃ made after v tested, imitate evaluate ⟨4⟩ { positional := [.numeral 3] } (calling 9) m =
        .ok made after ∧ checkFields "Point" [] [] (calling 9) m = .ok () tested ∧
      (tested.heap.Names .numeral (.text ⟨7⟩) → tested.heap.Passes .numeral v)) ∧
    ∃ after, setAttribute (.form ⟨4⟩) "scale" (.numeral 2) (calling 9) m = .ok true after ∧
      m.heap.Passes .numeral (.numeral 2) := by
  obtain ⟨loaded, loads, takes⟩ := measuring_takes
  simp only [takesNumerals, Bool.and_eq_true, decide_eq_true_eq, answersTrue_iff] at takes
  obtain ⟨⟨⟨⟨⟨text, journey⟩, form⟩, entry, bound⟩, after, making⟩, left, assigned⟩ := takes
  obtain ⟨made, after, making, _⟩ := (Run.bind_eq_ok).mp making
  have named : (loaded.withBudget 20).heap.Names .numeral (.text ⟨6⟩) := ⟨⟨6⟩, rfl, text⟩
  have scaled : (loaded.withBudget 20).heap.fieldGuard? (.form ⟨4⟩) "scale" = some (.text ⟨6⟩) := by
    simp only [Heap.fieldGuard?, form]
    decide
  obtain ⟨fitting, _, constructing, assigning⟩ :=
    genus_guards (g := .numeral) (by decide) 9 (loaded.withBudget 20)
  have decided := fun c => (fitting (.text ⟨6⟩) c named).1 (loaded.withBudget 20)
  refine ⟨loaded.withBudget 20, (decided (.numeral 3)).mpr ⟨rfl, .inl rfl⟩, ?_, ?_, ?_, ?_⟩
  · intro passed
    rcases ((decided (.veracity true)).mp passed).2 with other | ⟨h, other, _⟩ <;> contradiction
  · obtain ⟨_, binding, _⟩ := genus_guards (g := .numeral) (by decide) 9
      (((loaded.withBudget 20).pin (.journey ⟨5⟩ :: lengths.values)).enter ⟨5⟩ measure)
    obtain ⟨guard, v, tested, admits, passes, entered⟩ := binding measure lengths entry
      { name := "a", guard := some 0 } 1 0 bound (by decide) rfl
    have closed : (loaded.withBudget 20).Closed := (loads.started False 20).closed
    have frames : (loaded.withBudget 20).frames = [] := congrArg (·.1) loads.standing
    have settings : (loaded.withBudget 20).settings = _ := congrArg (·.2.2) loads.standing
    have refer : ∀ v ∈ .journey ⟨5⟩ :: lengths.values, (loaded.withBudget 20).heap.Refers v := by
      simp [lengths, Arguments.values, Heap.Holds, text, journey, Object.genus]
    have room : (loaded.withBudget 20).frameDepth < (loaded.withBudget 20).settings.maxFrames := by
      rw [frameDepth, frames, settings]
      decide
    have found := entered _ ⟨5⟩ ⟨"measure", [measure]⟩ (.pinned closed (loads.ordered 20) refer room)
      journey (List.mem_singleton_self _) (modest_measure _) rfl
    exact ⟨_, entry, guard, v, tested, bound, found, admits, passes⟩
  · obtain ⟨v, tested, _, checked, passes⟩ := constructing ⟨4⟩ point _ made after 0
      { name := "x", guard := some (.text ⟨7⟩) } (.text ⟨7⟩) form rfl making rfl rfl
    exact ⟨made, after, v, tested, making, checked, passes⟩
  · exact ⟨left, assigned, assigning _ _ _ _ left scaled named assigned⟩

/-- A guard also lets a text through that spells the name of another genus as the guard does. -/
theorem spelling_passes : ¬ ∀ (g : Genus) (depth : Nat) (settings : Settings) (world : Host.World)
    (image : Image) (m : Machine) (guard c : Value), g ≠ .other → g ≠ .imitation →
    Loads settings world image m → m.heap.Names g guard → m.heap.Refers c →
    (fits guard c (calling depth) m = .ok true m ↔ c.genus = g) := by
  intro claimed
  obtain ⟨m, loads, takes⟩ := measuring_takes
  simp only [takesNumerals, Bool.and_eq_true, decide_eq_true_eq] at takes
  have text : m.heap.get? ⟨6⟩ = some (.text "Numeral") := takes.1.1.1.1.1
  have named : m.heap.Names .numeral (.text ⟨6⟩) := ⟨⟨6⟩, rfl, text⟩
  have live : m.heap.Refers (.text ⟨6⟩) := (Heap.refers_text).mpr ⟨_, text, rfl⟩
  have passed : fits (.text ⟨6⟩) (.text ⟨6⟩) (calling 9) m = .ok true m :=
    (Run.fits_named_iff (by decide) named).mpr ⟨rfl, .inr named⟩
  have numeral := (claimed .numeral 9 _ _ _ m _ _ (by decide) (by decide) loads named live).mp passed
  contradiction

end Machine

end JourneyMachine
