import JourneyMachine.Proofs.Dispatch.Binding

namespace JourneyMachine.Run

open Machine (Binding)
open Dispatch

variable {env : Env} {m m' m₀ : Machine} {h : Handle} {p : Pattern}

section Defaults

/-- Fills the registers of the parameters that are not given by their defaults. -/
def fill (given : Nat → Option Value) (registerOf : Nat → Nat) : Nat → List Parameter → Run Bool
  | _, [] => return true
  | i, q :: rest =>
    match given i, q.fallback with
    | some _, _ => fill given registerOf (i + 1) rest
    | none, none => return false
    | none, some start => do
      setRegister (registerOf i) (← evaluate start)
      fill given registerOf (i + 1) rest

theorem fill_positional {values : List Value} (i skip : Nat) (parameters : List Parameter)
    (first : i + skip = max i values.length) :
    fill (values[·]?) id i parameters =
      bindDefaults evaluate (i + skip) (parameters.drop skip) := by
  induction parameters generalizing i skip with
  | nil => simp [fill, bindDefaults]
  | cons q rest ih =>
    cases skip with
    | zero =>
      have missing : values[i]? = none := List.getElem?_eq_none (by omega)
      have next := ih (i + 1) 0 (by omega)
      simp only [fill, missing, bindDefaults, Nat.add_zero, List.drop_zero] at next ⊢
      cases q.fallback with
      | none => rfl
      | some start => simp only [next, id]
    | succ skip =>
      have inside : i < values.length := by omega
      have next := ih (i + 1) skip (by omega)
      have same : i + (skip + 1) = i + 1 + skip := by omega
      simp only [fill, List.getElem?_eq_getElem inside, List.drop_succ_cons, next, same]

theorem fill_keywords {given : Nat → Option Value} {filled : List Nat}
    (same : ∀ j, j ∈ filled ↔ (given j).isSome) (i : Nat) (parameters : List Parameter) :
    bindKeywordDefaults evaluate p filled i parameters =
      fill given p.keywordRegister i parameters := by
  induction parameters generalizing i with
  | nil => rfl
  | cons q rest ih =>
    simp only [bindKeywordDefaults, fill, same, ih]
    cases given i with
    | none => cases q.fallback <;> simp
    | some v => simp

variable {given : Nat → Option Value} {registerOf : Nat → Nat} {i : Nat}
  {parameters : List Parameter}

/-- The defaults are run as they are to be. -/
theorem fill_iff (calls : env.Calls False) (binding : Binding m₀ h p m)
    (modest : ∀ q ∈ parameters, ∀ start, q.fallback = some start → Modest env p start)
    (inside : ∀ j, i ≤ j → j < i + parameters.length → registerOf j < p.boundRegisters) :
    fill given registerOf i parameters env m = .ok true m' ↔
      ∃ vs runs, Supplies env given registerOf i parameters m vs runs m' := by
  -- On the parameters, in any machine in which the registers of the pattern are there.
  induction parameters generalizing i m with
  | nil =>
    simp only [fill, pure_eq_ok, true_and]
    constructor
    · rintro rfl
      exact ⟨[], [], .done⟩
    · rintro ⟨_, _, supplies⟩
      cases supplies
      rfl
  | cons q rest ih =>
    have later : ∀ r ∈ rest, ∀ start, r.fallback = some start → Modest env p start :=
      fun r member => modest r (List.mem_cons_of_mem _ member)
    have below : ∀ j, i + 1 ≤ j → j < i + 1 + rest.length → registerOf j < p.boundRegisters :=
      fun j least most => inside j (by omega) (by simp only [List.length_cons]; omega)
    cases here : given i with
    | some v =>
      simp only [fill, here]
      rw [ih binding later below]
      constructor
      · rintro ⟨vs, runs, supplies⟩
        exact ⟨v :: vs, runs, .given here supplies⟩
      · rintro ⟨_, _, supplies⟩
        cases supplies with
        | given _ supplies => exact ⟨_, _, supplies⟩
        | fallback missing => simp [here] at missing
    | none =>
      cases code : q.fallback with
      | none =>
        simp only [fill, here, code, pure_eq_ok, Bool.false_eq_true, false_and, false_iff]
        rintro ⟨_, _, supplies⟩
        cases supplies with
        | given found => simp [here] at found
        | fallback _ found => simp [code] at found
      | some start =>
        have known := modest q (List.mem_cons_self ..) start code
        simp only [fill, here, code, bind_eq_ok]
        constructor
        · rintro ⟨v, m₁, ran, _, m₂, stored, rest⟩
          obtain ⟨bound, refers, _⟩ := evaluated calls known binding ran
          -- The default may run any code, but the frame is on top again when it is done.
          have wide := bound.wide (registerOf i) (inside i le_rfl (by simp))
          rw [setRegister_eq wide] at stored
          cases stored
          obtain ⟨vs, runs, supplies⟩ := (ih (bound.store refers) later below).mp rest
          exact ⟨v :: vs, (m, m₁) :: runs, .fallback here code ran supplies⟩
        · rintro ⟨_, _, supplies⟩
          cases supplies with
          | given found => simp [here] at found
          | @fallback _ start' _ _ v vs runs _ m₁ _ missing found ran supplies =>
            cases found.symm.trans code
            obtain ⟨bound, refers, _⟩ := evaluated calls known binding ran
            have wide := bound.wide (registerOf i) (inside i le_rfl (by simp))
            exact ⟨v, m₁, ran, (), _, setRegister_eq wide,
              (ih (bound.store refers) later below).mpr ⟨vs, runs, supplies⟩⟩

/-- The defaults are run, and then something is made of what is left over. -/
theorem filled_iff {make : Run Bool} {made : Machine → Option Handle → Machine → Prop}
    (calls : env.Calls False) (binding : Binding m₀ h p m)
    (modest : ∀ q ∈ parameters, ∀ start, q.fallback = some start → Modest env p start)
    (inside : ∀ j, i ≤ j → j < i + parameters.length → registerOf j < p.boundRegisters)
    (makes : ∀ m₁, Binding m₀ h p m₁ →
      (make env m₁ = .ok true m' ↔ ∃ handle, made m₁ handle m')) :
    (do if ← fill given registerOf i parameters then make else return false) env m =
        .ok true m' ↔
      ∃ vs runs m₁ handle, Supplies env given registerOf i parameters m vs runs m₁ ∧
        made m₁ handle m' := by
  rw [and_eq_ok]
  constructor
  · rintro ⟨m₁, ran, after⟩
    obtain ⟨vs, runs, supplies⟩ := (fill_iff calls binding modest inside).mp ran
    obtain ⟨handle, done⟩ := (makes m₁ (supplies.binding calls modest binding)).mp after
    exact ⟨vs, runs, m₁, handle, supplies, done⟩
  · rintro ⟨vs, runs, m₁, handle, supplies, done⟩
    exact ⟨m₁, (fill_iff calls binding modest inside).mpr ⟨vs, runs, supplies⟩,
      (makes m₁ (supplies.binding calls modest binding)).mpr ⟨handle, done⟩⟩

end Defaults

section Positional

theorem bindGiven_eq (i : Nat) (parameters : List Parameter) (values : List Value)
    (wide : ∀ j, i ≤ j → j < i + parameters.length → (m.slot? j).isSome) :
    bindGiven i parameters values env m = .ok () (m.assign fun j =>
      if i ≤ j ∧ j < i + parameters.length then values[j - i]? else none) := by
  induction parameters generalizing i values m with
  | nil =>
    have nowhere : ∀ j, ¬ (i ≤ j ∧ j < i + ([] : List Parameter).length) := by
      intro j
      simp
    simp only [bindGiven, nowhere, if_false, Machine.assign_none]
    rfl
  | cons q rest ih =>
    cases values with
    | nil =>
      simp only [bindGiven, List.getElem?_nil, ite_self, Machine.assign_none]
      rfl
    | cons v values =>
      have here : setRegister i v env m = .ok () (m.store i v) :=
        setRegister_eq (wide i le_rfl (by simp))
      rw [bindGiven, bind_ok here, ih (i + 1) values, Machine.store, Machine.assign_assign]
      · congr 2
        funext j
        simp only [List.length_cons]
        by_cases first : j = i
        · simp [first]
        · by_cases inside : i + 1 ≤ j ∧ j < i + 1 + rest.length
          · have next : j - i = j - (i + 1) + 1 := by omega
            rw [if_pos inside, if_neg first, if_pos (by omega), next, List.getElem?_cons_succ]
            exact Option.or_none
          · rw [if_neg inside, if_neg first, if_neg (by omega)]
            rfl
      · intro j least most
        rw [Machine.slot_store_of_ne (by omega)]
        exact wide j (by omega) (by simp only [List.length_cons]; omega)

def makeSplat (p : Pattern) (surplus : List Value) : Run Bool :=
  if p.splat then do
    let rest ← newBook surplus.toArray
    setRegister p.splatRegister rest
    return true
  else return true

theorem bindPositional_eq (values : List Value) :
    bindPositional evaluate p values = (do
      bindGiven 0 p.positional values
      if values.length ≤ p.positional.length ∨ p.splat = true then
        if ← fill (values[·]?) id 0 p.positional then makeSplat p (p.surplus values)
        else return false
      else return false) := by
  unfold bindPositional
  refine congrArg (bindGiven 0 p.positional values >>= ·) (funext fun _ => ?_)
  rw [fill_positional 0 values.length p.positional (by simp), Nat.zero_add]
  by_cases more : p.positional.length < values.length
  · rw [List.drop_of_length_le more.le]
    cases splat : p.splat <;>
      simp [more, Nat.not_le.mpr more, bindDefaults, makeSplat, splat, Pattern.surplus]
  · have none : p.surplus values = [] := List.drop_of_length_le (Nat.le_of_not_lt more)
    simp [more, Nat.le_of_not_lt more, makeSplat, none]

theorem makeSplat_iff {surplus : List Value} (binding : Binding m₀ h p m)
    (held : ∀ v ∈ surplus, v ∈ m₀.held) :
    makeSplat p surplus env m = .ok true m' ↔ ∃ handle, Splats env p surplus m handle m' := by
  unfold makeSplat
  cases splat : p.splat with
  | false =>
    simp only [Bool.false_eq_true, if_false, pure_eq_ok, true_and]
    constructor
    · rintro rfl
      exact ⟨none, .without splat⟩
    · rintro ⟨_, splats⟩
      cases splats with
      | without => rfl
      | book has => simp [splat] at has
  | true =>
    have placed : ∀ k m₁, allocate (.book surplus.toArray) env m = .ok k m₁ →
        m.Placed (.book surplus.toArray) k m₁ ∧ (m₁.slot? p.splatRegister).isSome := by
      intro k m₁ made
      have refer : ∀ v ∈ (Object.book surplus.toArray).links, m.heap.Refers v := by
        intro v member
        exact binding.refers (held v (by simpa [Object.links] using member))
      obtain ⟨bound, _, placed⟩ := allocated binding (by simp [Object.genus]) refer made
      exact ⟨placed, bound.wide _ (Pattern.splatRegister_lt splat)⟩
    simp only [if_true, newBook, bind_eq_ok, pure_eq_ok]
    constructor
    · rintro ⟨v, m₁, ⟨k, m₂, made, rfl, rfl⟩, _, m₃, stored, _, rfl⟩
      obtain ⟨fresh, wide⟩ := placed k m₂ made
      rw [setRegister_eq wide] at stored
      cases stored
      exact ⟨some k, .book splat made fresh⟩
    · rintro ⟨_, splats⟩
      cases splats with
      | without has => simp [splat] at has
      | book _ made fresh =>
        exact ⟨_, _, ⟨_, _, made, rfl, rfl⟩, (), _, setRegister_eq (placed _ _ made).2,
          trivial, rfl⟩

theorem bindPositional_iff {values : List Value} (calls : env.Calls False)
    (binding : Binding m₀ h p m) (held : ∀ v ∈ values, v ∈ m₀.held)
    (modest : ∀ q ∈ p.positional, ∀ start, q.fallback = some start → Modest env p start) :
    bindPositional evaluate p values env m = .ok true m' ↔
      (values.length ≤ p.positional.length ∨ p.splat = true) ∧
      ∃ vs runs m₁ handle, Supplies env (values[·]?) id 0 p.positional
          (m.assign (p.positionalValues values)) vs runs m₁ ∧
        Splats env p (p.surplus values) m₁ handle m' := by
  have given : bindGiven 0 p.positional values env m =
      .ok () (m.assign (p.positionalValues values)) := by
    rw [bindGiven_eq 0 _ _ fun j _ inside => binding.wide j (Pattern.positional_lt (by omega))]
    simp only [Nat.zero_le, true_and, Nat.zero_add, Nat.sub_zero]
    rfl
  have left : ∀ v ∈ p.surplus values, v ∈ m₀.held := fun v member =>
    held v (List.mem_of_mem_drop member)
  rw [bindPositional_eq, bind_ok given]
  by_cases count : values.length ≤ p.positional.length ∨ p.splat = true
  · rw [if_pos count, filled_iff calls (binding.positional held) modest
      (fun j _ inside => Pattern.positional_lt (by simpa using inside))
      fun m₁ bound => makeSplat_iff bound left]
    simp only [count, true_and]
  · rw [if_neg count, pure_eq_ok]
    simp [count]

end Positional

section Keywords

variable {keywords : List (String × Value)}

theorem keywordIndex_ne_none {name : String} :
    p.keywordIndex? name ≠ none ↔ ∃ q ∈ p.keywords, q.name = name := by
  simp [Pattern.keywordIndex?, List.findIdx?_eq_none_iff]

theorem received_cons (k : String × Value) (i : Nat) : p.received (k :: keywords) i =
    (p.received keywords i).or (if p.keywordIndex? k.1 = some i then some k.2 else none) := by
  unfold Pattern.received
  by_cases here : p.keywordIndex? k.1 = some i
  · rw [List.filter_cons_of_pos (by simpa using here), List.getLast?_cons, if_pos here]
    cases (keywords.filter fun k => p.keywordIndex? k.1 = some i).getLast? <;> rfl
  · rw [List.filter_cons_of_neg (by simpa using here), if_neg here, Option.or_none]

theorem keywordValues_cons_of_some {k : String × Value} {i : Nat}
    (found : p.keywordIndex? k.1 = some i) : p.keywordValues (k :: keywords) = fun r =>
      (p.keywordValues keywords r).or (if r = p.keywordRegister i then some k.2 else none) := by
  funext r
  have same : (p.keywordRegister 0 ≤ r ∧ i = r - p.keywordRegister 0) ↔
      r = p.keywordRegister i := by
    rw [Pattern.keywordRegister_eq p i]
    omega
  unfold Pattern.keywordValues
  by_cases least : p.keywordRegister 0 ≤ r
  · simp only [least, if_true, received_cons, found, Option.some.injEq, ← same, true_and]
  · have other : r ≠ p.keywordRegister i := fun equal => least (same.mpr equal).1
    simp [least, other]

theorem keywordValues_cons_of_none {k : String × Value} (missing : p.keywordIndex? k.1 = none) :
    p.keywordValues (k :: keywords) = p.keywordValues keywords := by
  funext r
  simp [Pattern.keywordValues, received_cons, missing]

theorem received_isSome {i : Nat} : (p.received keywords i).isSome ↔
    i ∈ keywords.filterMap fun k => p.keywordIndex? k.1 := by
  induction keywords with
  | nil => simp [Pattern.received]
  | cons k rest ih =>
    rw [received_cons, Option.isSome_or, Bool.or_eq_true, ih]
    cases found : p.keywordIndex? k.1 with
    | none => simp [found]
    | some j =>
      by_cases same : j = i
      · simp [found, same]
      · simp [found, same, Ne.symm same]

/-- The keywords are bound if all of them are taken. -/
theorem bindKeywordArguments_iff {filled : List Nat} {extra : List (String × Value)}
    {taken : List Nat × List (String × Value)}
    (wide : ∀ i < p.boundRegisters, (m.slot? i).isSome) :
    bindKeywordArguments p keywords filled extra env m = .ok (some taken) m' ↔
      (∀ k ∈ keywords, p.keywordIndex? k.1 ≠ none ∨ p.splatsplat = true) ∧
      ((keywords.filterMap fun k => p.keywordIndex? k.1).reverse ++ filled,
        extra ++ p.unknown keywords) = taken ∧ m.assign (p.keywordValues keywords) = m' := by
  -- On the keywords, for what was filled and collected before: later ones overwrite earlier ones.
  induction keywords generalizing m filled extra with
  | nil =>
    have nothing : p.keywordValues [] = fun _ => none := by
      funext r
      simp [Pattern.keywordValues, Pattern.received]
    simp [bindKeywordArguments, pure_eq_ok, nothing, Machine.assign_none, Pattern.unknown]
  | cons k rest ih =>
    obtain ⟨name, v⟩ := k
    cases found : p.keywordIndex? name with
    | some i =>
      have here : setRegister (p.keywordRegister i) v env m =
          .ok () (m.store (p.keywordRegister i) v) :=
        setRegister_eq (wide _ (Pattern.keywordRegister_lt (Pattern.keywordIndex_lt found)))
      have still : ∀ j < p.boundRegisters,
          ((m.store (p.keywordRegister i) v).slot? j).isSome := by
        intro j inside
        rw [Machine.store, Machine.slot_assign, Option.isSome_map]
        exact wide j inside
      simp only [bindKeywordArguments, found]
      rw [bind_ok here, ih still, Machine.store, Machine.assign_assign,
        keywordValues_cons_of_some found]
      simp [found, Pattern.unknown]
    | none =>
      cases collects : p.splatsplat with
      | true =>
        simp only [bindKeywordArguments, found, collects, if_true]
        rw [ih wide, keywordValues_cons_of_none found]
        simp [found, collects, Pattern.unknown]
      | false => simp [bindKeywordArguments, found, collects, pure_eq_ok]

theorem collectKeywords_iff {target : Handle} :
    collectKeywords target keywords env m = .ok () m' ↔ Gathers env target keywords m m' := by
  induction keywords generalizing m with
  | nil =>
    simp only [collectKeywords, pure_eq_ok, true_and]
    constructor
    · rintro rfl
      exact .done
    · rintro ⟨⟩
      rfl
  | cons k rest ih =>
    obtain ⟨name, v⟩ := k
    simp only [collectKeywords, bind_eq_ok]
    constructor
    · rintro ⟨key, m₁, made, _, m₂, stored, gathered⟩
      exact .stored made stored (ih.mp gathered)
    · rintro (_ | ⟨made, stored, gathers⟩)
      exact ⟨_, _, made, (), _, stored, ih.mpr gathers⟩

def makeSplatsplat (p : Pattern) (unknown : List (String × Value)) : Run Bool :=
  if p.splatsplat then do
    let target ← allocate (.codex [])
    setRegister p.splatsplatRegister (.codex target)
    collectKeywords target unknown
    return true
  else return true

theorem makeSplatsplat_iff {unknown : List (String × Value)} (binding : Binding m₀ h p m) :
    makeSplatsplat p unknown env m = .ok true m' ↔
      ∃ handle, Splatsplats env p unknown m handle m' := by
  unfold makeSplatsplat
  cases splatsplat : p.splatsplat with
  | false =>
    simp only [Bool.false_eq_true, if_false, pure_eq_ok, true_and]
    constructor
    · rintro rfl
      exact ⟨none, .without splatsplat⟩
    · rintro ⟨_, made⟩
      cases made with
      | without => rfl
      | codex has => simp [splatsplat] at has
  | true =>
    have placed : ∀ k m₁, allocate (.codex []) env m = .ok k m₁ →
        m.Placed (.codex []) k m₁ ∧ (m₁.slot? p.splatsplatRegister).isSome := by
      intro k m₁ made
      obtain ⟨bound, _, placed⟩ := allocated binding (by simp [Object.genus])
        (by simp [Object.links]) made
      exact ⟨placed, bound.wide _ (Pattern.splatsplatRegister_lt splatsplat)⟩
    simp only [if_true, bind_eq_ok, pure_eq_ok]
    constructor
    · rintro ⟨k, m₁, made, _, m₂, stored, _, m₃, gathered, _, rfl⟩
      obtain ⟨fresh, wide⟩ := placed k m₁ made
      rw [setRegister_eq wide] at stored
      cases stored
      exact ⟨some k, .codex splatsplat made fresh ((collectKeywords_iff).mp gathered)⟩
    · rintro ⟨_, made⟩
      cases made with
      | without has => simp [splatsplat] at has
      | codex _ made fresh gathers =>
        exact ⟨_, _, made, (), _, setRegister_eq (placed _ _ made).2, (), _,
          (collectKeywords_iff).mpr gathers, trivial, rfl⟩

theorem bindKeywords_eq_ok : bindKeywords evaluate p keywords env m = .ok true m' ↔
    ∃ taken m₁, bindKeywordArguments p keywords [] [] env m = .ok (some taken) m₁ ∧
      (do
        if ← bindKeywordDefaults evaluate p taken.1 0 p.keywords then makeSplatsplat p taken.2
        else return false) env m₁ = .ok true m' := by
  unfold bindKeywords
  rw [bind_eq_ok]
  constructor
  · rintro ⟨taken, m₁, bound, rest⟩
    cases taken with
    | none => cases rest
    | some taken =>
      refine ⟨taken, m₁, bound, ?_⟩
      simpa [makeSplatsplat] using rest
  · rintro ⟨taken, m₁, bound, rest⟩
    refine ⟨some taken, m₁, bound, ?_⟩
    simpa [makeSplatsplat] using rest

theorem bindKeywords_iff (calls : env.Calls False) (binding : Binding m₀ h p m)
    (held : ∀ k ∈ keywords, k.2 ∈ m₀.held)
    (modest : ∀ q ∈ p.keywords, ∀ start, q.fallback = some start → Modest env p start) :
    bindKeywords evaluate p keywords env m = .ok true m' ↔
      (∀ k ∈ keywords, (∃ q ∈ p.keywords, q.name = k.1) ∨ p.splatsplat = true) ∧
      ∃ vs runs m₁ handle, Supplies env (p.received keywords) p.keywordRegister 0 p.keywords
          (m.assign (p.keywordValues keywords)) vs runs m₁ ∧
        Splatsplats env p (p.unknown keywords) m₁ handle m' := by
  have filled : ∀ j, j ∈ (keywords.filterMap fun k => p.keywordIndex? k.1).reverse ++ [] ↔
      (p.received keywords j).isSome := by
    intro j
    rw [received_isSome]
    simp
  have stages : (do
        if ← fill (p.received keywords) p.keywordRegister 0 p.keywords then
          makeSplatsplat p (p.unknown keywords)
        else return false) env (m.assign (p.keywordValues keywords)) = .ok true m' ↔
      ∃ vs runs m₁ handle, Supplies env (p.received keywords) p.keywordRegister 0 p.keywords
          (m.assign (p.keywordValues keywords)) vs runs m₁ ∧
        Splatsplats env p (p.unknown keywords) m₁ handle m' :=
    filled_iff calls (binding.keywords held) modest
      (fun j _ inside => Pattern.keywordRegister_lt (by simpa using inside))
      fun m₁ bound => makeSplatsplat_iff bound
  rw [← stages, bindKeywords_eq_ok]
  simp only [bindKeywordArguments_iff binding.wide, keywordIndex_ne_none, List.nil_append]
  constructor
  · rintro ⟨_, _, ⟨taken, rfl, rfl⟩, rest⟩
    rw [fill_keywords filled] at rest
    exact ⟨taken, rest⟩
  · rintro ⟨taken, rest⟩
    refine ⟨_, _, ⟨taken, rfl, rfl⟩, ?_⟩
    rw [fill_keywords filled]
    exact rest

end Keywords

section Guards

variable {registerOf : Nat → Nat} {i : Nat} {parameters : List Parameter}

theorem checkGuards_iff : checkGuards evaluate registerOf i parameters env m = .ok true m' ↔
    ∃ runs, Matches env registerOf i parameters m runs m' := by
  -- On the parameters: each guard runs in the machine that the guards before it left.
  induction parameters generalizing i m with
  | nil =>
    simp only [checkGuards, pure_eq_ok, true_and]
    constructor
    · rintro rfl
      exact ⟨[], .done⟩
    · rintro ⟨_, found⟩
      cases found
      rfl
  | cons q rest ih =>
    cases code : q.guard with
    | none =>
      simp only [checkGuards, code, ih]
      constructor
      · rintro ⟨runs, found⟩
        exact ⟨runs, .unguarded code found⟩
      · rintro ⟨_, found⟩
        cases found with
        | unguarded _ found => exact ⟨_, found⟩
        | guarded has => simp [code] at has
    | some start =>
      simp only [checkGuards, code]
      rw [bind_eq_ok]
      constructor
      · rintro ⟨guard, m₁, ran, checked⟩
        rw [bind_eq_ok] at checked
        obtain ⟨v, m₂, read, checked⟩ := checked
        obtain ⟨found, rfl⟩ := (register_eq_ok).mp read
        obtain ⟨m₂, fit, checked⟩ := (and_eq_ok).mp checked
        obtain ⟨runs, found'⟩ := ih.mp checked
        exact ⟨_, .guarded code ran found fit found'⟩
      · rintro ⟨_, matched⟩
        cases matched with
        | unguarded has => simp [code] at has
        | guarded has ran found fit rest =>
          cases has.symm.trans code
          refine ⟨_, _, ran, ?_⟩
          rw [bind_eq_ok]
          exact ⟨_, _, (register_eq_ok).mpr ⟨found, rfl⟩, (and_eq_ok).mpr
            ⟨_, fit, ih.mpr ⟨_, rest⟩⟩⟩

theorem checkCondition_iff : checkCondition evaluate p env m = .ok true m' ↔
    ∃ runs, Conditions env p m runs m' := by
  cases code : p.condition with
  | none =>
    simp only [checkCondition, code, pure_eq_ok, true_and]
    constructor
    · rintro rfl
      exact ⟨[], .without code⟩
    · rintro ⟨_, found⟩
      cases found with
      | without => rfl
      | true has => simp [code] at has
  | some start =>
    simp only [checkCondition, code, bind_eq_ok]
    constructor
    · rintro ⟨v, m₁, ran, truth⟩
      exact ⟨_, .true code ran truth⟩
    · rintro ⟨_, found⟩
      cases found with
      | without has => simp [code] at has
      | true has ran truth =>
        cases has.symm.trans code
        exact ⟨_, _, ran, truth⟩

end Guards

section Patterns

variable {args : Arguments}

/-- Binding succeeds exactly if the pattern applies. -/
theorem bindArguments_iff (calls : env.Calls False) (binding : Binding m₀ h p m)
    (held : ∀ v ∈ args.values, v ∈ m₀.held)
    (modest : ∀ start ∈ p.subPrograms, Modest env p start) :
    bindArguments evaluate p args env m = .ok true m' ↔
      ∃ bound, Applies env p args m bound m' := by
  have assigned := binding.positional (held_positional held)
  have surplus : ∀ v ∈ p.surplus args.positional, v ∈ m₀.held := fun v member =>
    held_positional held v (List.mem_of_mem_drop member)
  unfold bindArguments
  rw [unless_eq_ok]
  simp only [bindPositional_iff calls binding (held_positional held) (modest_fallback modest .inl)]
  -- Each stage succeeds exactly in its relation, and a binding strings the stages together.
  constructor
  · rintro ⟨m₂, ⟨count, vs, runs₁, m₁, splat, supplies, splats⟩, rest⟩
    obtain ⟨bound, _⟩ := splats.collected surplus
      (supplies.binding calls (modest_fallback modest .inl) assigned)
    obtain ⟨m₄, keywords, rest⟩ := (unless_eq_ok).mp rest
    obtain ⟨m₅, positional, rest⟩ := (unless_eq_ok).mp rest
    obtain ⟨m₆, guards, condition⟩ := (unless_eq_ok).mp rest
    obtain ⟨names, ws, runs₂, m₃, splatsplat, fills, splatsplats⟩ :=
      (bindKeywords_iff calls bound (held_keywords held) (modest_fallback modest .inr)).mp keywords
    obtain ⟨runs₃, matchesPositional⟩ := (checkGuards_iff).mp positional
    obtain ⟨runs₄, matchesKeywords⟩ := (checkGuards_iff).mp guards
    obtain ⟨runs₅, conditions⟩ := (checkCondition_iff).mp condition
    refine ⟨⟨vs, splat, ws, splatsplat, runs₁ ++ runs₂ ++ runs₃ ++ runs₄ ++ runs₅⟩,
      ⟨count, fun i q there least => ?_, names, fun i q there missing => ?_⟩,
      m₁, m₂, m₃, m₄, m₅, m₆, runs₁, runs₂, runs₃, runs₄, runs₅, supplies, splats, fills,
      splatsplats, matchesPositional, matchesKeywords, conditions, rfl⟩
    · exact supplies.fallbacks there (List.getElem?_eq_none (by omega))
    · exact fills.fallbacks there (by rwa [Nat.zero_add])
  · rintro ⟨bound, takes, m₁, m₂, m₃, m₄, m₅, m₆, runs₁, runs₂, runs₃, runs₄, runs₅, supplies,
      splats, fills, splatsplats, matchesPositional, matchesKeywords, conditions, _⟩
    obtain ⟨still, _⟩ := splats.collected surplus
      (supplies.binding calls (modest_fallback modest .inl) assigned)
    have keywords := (bindKeywords_iff calls still (held_keywords held)
      (modest_fallback modest .inr)).mpr ⟨takes.names, _, _, m₃, _, fills, splatsplats⟩
    exact ⟨m₂, ⟨takes.count, _, _, m₁, _, supplies, splats⟩, (unless_eq_ok).mpr ⟨m₄, keywords,
      (unless_eq_ok).mpr ⟨m₅, (checkGuards_iff).mpr ⟨_, matchesPositional⟩, (unless_eq_ok).mpr
        ⟨m₆, (checkGuards_iff).mpr ⟨_, matchesKeywords⟩, (checkCondition_iff).mpr ⟨_, conditions⟩⟩⟩⟩⟩

end Patterns

end JourneyMachine.Run
