import JourneyMachine.Proofs.Dispatch.Keywords
import JourneyMachine.Proofs.Dispatch.Stages

namespace JourneyMachine.Dispatch

open Machine (Binding)
open Run

variable {env : Env} {given : Nat → Option Value} {registerOf : Nat → Nat} {i : Nat}
  {parameters : List Parameter} {m m₁ m₂ m' m₀ : Machine} {vs : List Value}
  {runs more : List (Machine × Machine)} {h : Handle} {p : Pattern}

section Supplying

theorem Supplies.given_value (supplies : Supplies env given registerOf i parameters m vs runs m')
    {k : Nat} {v : Value} (inside : k < parameters.length) (found : given (i + k) = some v) :
    vs[k]? = some v := by
  induction supplies generalizing k with
  | done => simp at inside
  | given here _ ih =>
    cases k with
    | zero => simpa [here] using found
    | succ k =>
      rw [← Nat.add_assoc, Nat.add_right_comm] at found
      simpa using ih (by simpa using inside) found
  | fallback missing _ _ _ ih =>
    cases k with
    | zero => simp [missing] at found
    | succ k =>
      rw [← Nat.add_assoc, Nat.add_right_comm] at found
      simpa using ih (by simpa using inside) found

variable (calls : env.Calls False)
  (modest : ∀ q ∈ parameters, ∀ start, q.fallback = some start → Modest env p start)
include calls modest

/-- A register stays as it is that belongs to no parameter whose default runs. -/
theorem Supplies.slot (supplies : Supplies env given registerOf i parameters m vs runs m')
    (binding : Binding m₀ h p m) {r : Nat} (inside : r < p.boundRegisters)
    (other : ∀ k, i ≤ k → k < i + parameters.length → given k = none → registerOf k ≠ r) :
    m'.slot? r = m.slot? r := by
  have kept : Binding m₀ h p m' ∧ m'.slot? r = m.slot? r := by
    apply supplies.keeps (P := fun x => Binding m₀ h p x ∧ x.slot? r = m.slot? r) _
      ⟨binding, rfl⟩
    intro k q start before v after least most member missing code ran _ bound
    obtain ⟨still, refers, same⟩ := evaluated calls (modest q member start code) bound.1 ran
    refine ⟨still.store refers, ?_⟩
    rw [Machine.slot_store_of_ne (Ne.symm (other k least most missing)), same r inside, bound.2]
  exact kept.2

/-- The register of each parameter holds its value. -/
theorem Supplies.values (supplies : Supplies env given registerOf i parameters m vs runs m')
    (binding : Binding m₀ h p m)
    (injective : ∀ j k, registerOf j = registerOf k → j = k)
    (inside : ∀ k, i ≤ k → k < i + parameters.length → registerOf k < p.boundRegisters)
    (start : ∀ k v, i ≤ k → k < i + parameters.length → given k = some v →
      m.slot? (registerOf k) = some v) :
    ∀ k < parameters.length, ∃ v, vs[k]? = some v ∧ m'.slot? (registerOf (i + k)) = some v := by
  -- On the parameters supplied: later ones are stored elsewhere, as no two share a register.
  induction supplies with
  | done => simp
  | @given i q rest v vs runs m m' here supplies ih =>
    have later : ∀ r ∈ rest, ∀ start, r.fallback = some start → Modest env p start :=
      fun r member => modest r (List.mem_cons_of_mem _ member)
    intro k least
    cases k with
    | zero =>
      refine ⟨v, rfl, ?_⟩
      rw [Nat.add_zero, supplies.slot calls later binding (inside i le_rfl (by simp))]
      · exact start i v le_rfl (by simp) here
      · intro j after _ _ same
        have := injective _ _ same
        omega
    | succ k =>
      have shift : i + (k + 1) = i + 1 + k := by omega
      rw [shift]
      simp only [List.length_cons] at inside start least
      simpa using ih later binding (fun j _ _ => inside j (by omega) (by omega))
        (fun j w _ _ => start j w (by omega) (by omega)) k (by omega)
  | @fallback i start' q rest v vs runs m m₁ m' missing code ran supplies ih =>
    have later : ∀ r ∈ rest, ∀ start, r.fallback = some start → Modest env p start :=
      fun r member => modest r (List.mem_cons_of_mem _ member)
    obtain ⟨bound, refers, same⟩ :=
      evaluated calls (modest q (List.mem_cons_self ..) start' code) binding ran
    have stored : Binding m₀ h p (m₁.store (registerOf i) v) := bound.store refers
    intro k least
    cases k with
    | zero =>
      refine ⟨v, rfl, ?_⟩
      rw [Nat.add_zero, supplies.slot calls later stored (inside i le_rfl (by simp))]
      · exact Machine.slot_stored (bound.wide _ (inside i le_rfl (by simp)))
      · intro j after _ _ equal
        have := injective _ _ equal
        omega
    | succ k =>
      have shift : i + (k + 1) = i + 1 + k := by omega
      rw [shift]
      simp only [List.length_cons] at inside start least
      refine ih later stored (fun j _ _ => inside j (by omega) (by omega))
        (fun j w after most found => ?_) k (by omega)
      rw [Machine.slot_store_of_ne, same _ (inside j (by omega) (by omega))]
      · exact start j w (by omega) (by omega) found
      · intro equal
        have := injective _ _ equal
        omega

/-- The book in the splat register stays as it is if the defaults spare it. -/
theorem Supplies.spares (supplies : Supplies env given registerOf i parameters m vs runs m')
    (binding : Binding m₀ h p m) (has : p.splat = true)
    (apart : ∀ k, registerOf k ≠ p.splatRegister) (sparing : ∀ run ∈ runs, Spares p run.1 run.2)
    {k : Handle} (there : m.slot? p.splatRegister = some (.book k)) :
    m'.heap.get? k = m.heap.get? k := by
  have kept : Binding m₀ h p m' ∧ m'.slot? p.splatRegister = some (.book k) ∧
      m'.heap.get? k = m.heap.get? k := by
    apply supplies.keeps (P := fun x => Binding m₀ h p x ∧
      x.slot? p.splatRegister = some (.book k) ∧ x.heap.get? k = m.heap.get? k) _
      ⟨binding, there, rfl⟩
    rintro j q start before v after _ _ member _ code ran run ⟨bound, here, content⟩
    obtain ⟨still, refers, same⟩ := evaluated calls (modest q member start code) bound ran
    refine ⟨still.store refers, ?_, ?_⟩
    · rw [Machine.slot_store_of_ne (Ne.symm (apart j)), same _ (Pattern.splatRegister_lt has), here]
    · exact ((sparing _ run).book has k here).trans content
  exact kept.2.2

end Supplying

section Checking

/-- Between two machines nothing was bound: the registers are the same, and what was collected too
if the runs in between have spared it. -/
structure Same (p : Pattern) (m m' : Machine) (runs : List (Machine × Machine)) : Prop where
  slot : ∀ r < p.boundRegisters, m'.slot? r = m.slot? r
  spares : (∀ run ∈ runs, Spares p run.1 run.2) → Spares p m m'

theorem Same.refl : Same p m m [] :=
  ⟨fun _ _ => rfl, fun _ => ⟨fun _ _ _ => rfl, fun _ _ _ => ⟨rfl, fun _ _ _ _ _ _ => rfl⟩⟩⟩

theorem Same.run (slot : ∀ r < p.boundRegisters, m'.slot? r = m.slot? r) :
    Same p m m' [(m, m')] :=
  ⟨slot, fun sparing => sparing (m, m') (List.mem_singleton_self _)⟩

theorem Same.trans (first : Same p m m₁ runs) (second : Same p m₁ m₂ more) :
    Same p m m₂ (runs ++ more) where
  slot r inside := (second.slot r inside).trans (first.slot r inside)
  spares sparing := by
    have before := first.spares fun run member => sparing run (List.mem_append_left _ member)
    have after := second.spares fun run member => sparing run (List.mem_append_right _ member)
    constructor
    · intro has k there
      have still : m₁.slot? p.splatRegister = some (.book k) := by
        rw [first.slot _ (Pattern.splatRegister_lt has), there]
      rw [after.book has k still, before.book has k there]
    · intro has k there
      have still : m₁.slot? p.splatsplatRegister = some (.codex k) := by
        rw [first.slot _ (Pattern.splatsplatRegister_lt has), there]
      obtain ⟨one, keys⟩ := before.codex has k there
      obtain ⟨two, others⟩ := after.codex has k still
      refine ⟨two.trans one, fun entries held entry member t key => ?_⟩
      rw [others entries (one.trans held) entry member t key, keys entries held entry member t key]

variable (calls : env.Calls False) (orderly : env.Orderly)
include calls orderly

theorem Matches.same (checked : Matches env registerOf i parameters m runs m')
    (modest : ∀ q ∈ parameters, ∀ start, q.guard = some start → Modest env p start)
    (binding : Binding m₀ h p m) : Binding m₀ h p m' ∧ Same p m m' runs := by
  induction checked with
  | done => exact ⟨binding, .refl⟩
  | unguarded _ _ ih =>
    exact ih (fun q member => modest q (List.mem_cons_of_mem _ member)) binding
  | @guarded i start q rest guard v runs m m₁ m₂ m' code ran found fit _ ih =>
    obtain ⟨bound, refers, slot⟩ :=
      evaluated calls (modest q (List.mem_cons_self ..) start code) binding ran
    obtain ⟨f, frames, _⟩ := bound.active.frame
    have member : v ∈ m₁.top := Machine.mem_top frames (by rwa [Machine.slot_cons frames] at found)
    have meets : Meets (.within False m₁) env (withPinned [guard] (fits guard v)) m₁
        fun _ m' => (∀ w ∈ [guard], m'.heap.Refers w) ∧ True :=
      .withPinned (Q := fun _ _ => True) (fun _ => List.forall_mem_singleton.mpr refers)
        (meets_fits calls False.elim (Machine.held_pin (Machine.top_sub_held member)))
    obtain ⟨matched, framesSame, _⟩ :=
      passed bound meets (.withPinned (orderly_fits orderly ..)) fit
    obtain ⟨last, rest⟩ := ih (fun q member => modest q (List.mem_cons_of_mem _ member)) matched
    have stepped := (Same.run slot).trans
      ((Same.run fun r _ => Machine.slot_of_frames framesSame).trans rest)
    exact ⟨last, stepped⟩

theorem Conditions.same (checked : Conditions env p m runs m')
    (modest : ∀ start, p.condition = some start → Modest env p start)
    (binding : Binding m₀ h p m) : Binding m₀ h p m' ∧ Same p m m' runs := by
  cases checked with
  | without => exact ⟨binding, .refl⟩
  | true code ran truth =>
    obtain ⟨bound, refers, slot⟩ := evaluated calls (modest _ code) binding ran
    obtain ⟨last, framesSame, _⟩ :=
      passed bound (meets_toVeracity calls refers) (orderly_toVeracity orderly _) truth
    exact ⟨last, (Same.run slot).trans (.run fun r _ => Machine.slot_of_frames framesSame)⟩

end Checking

section Entering

variable {args : Arguments} {bound : Bound} {entry : Machine} {handle : Option Handle}
  {keywords : List (String × Value)} {values : List Value}

theorem received_lt {k : Nat} {v : Value} (found : p.received keywords k = some v) :
    k < p.keywords.length := by
  obtain ⟨entry, last, _⟩ := Option.map_eq_some_iff.mp found
  have index := List.of_mem_filter (List.mem_of_getLast? last)
  exact Pattern.keywordIndex_lt (of_decide_eq_true index)

/-- What the positional stage leaves: the values, and the book of surplus arguments. -/
theorem positional_bound (calls : env.Calls False)
    (modest : ∀ q ∈ p.positional, ∀ start, q.fallback = some start → Modest env p start)
    (held : ∀ v ∈ values, v ∈ m₀.held) (binding : Binding m₀ h p m)
    (supplies : Supplies env (values[·]?) id 0 p.positional (m.assign (p.positionalValues values))
      vs runs m₁)
    (splats : Splats env p (p.surplus values) m₁ handle m₂) : Binding m₀ h p m₂ ∧
      (∀ k < p.positional.length, ∃ v, vs[k]? = some v ∧ m₂.slot? k = some v) ∧
      (p.splat = true → ∃ k, handle = some k ∧ m₂.slot? p.splatRegister = some (.book k) ∧
        m₂.heap.get? k = some (.book (p.surplus values).toArray)) := by
  have start := binding.positional held
  obtain ⟨last, slot, book⟩ := splats.collected (fun v member =>
    held v (List.mem_of_mem_drop member)) (supplies.binding calls modest start)
  refine ⟨last, fun k inside => ?_, book⟩
  have found := supplies.values calls modest start (fun _ _ same => same)
    (fun j _ most => Pattern.positional_lt (by simpa using most)) (fun j v _ most given => ?_)
  · obtain ⟨v, value, there⟩ := found k inside
    refine ⟨v, value, ?_⟩
    rw [slot k (Nat.ne_of_lt inside)]
    simpa using there
  · have below : j < p.positional.length := by simpa using most
    have wide := binding.wide j (Pattern.positional_lt below)
    obtain ⟨old, there⟩ := Option.isSome_iff_exists.mp wide
    simp [Machine.slot_assign, there, Pattern.positionalValues, below, given]

/-- What the keyword stage leaves: the values, the codex of unknown keywords, and what there was. -/
theorem keywords_bound (calls : env.Calls False) (orderly : env.Orderly)
    (modest : ∀ q ∈ p.keywords, ∀ start, q.fallback = some start → Modest env p start)
    (held : ∀ k ∈ keywords, k.2 ∈ m₀.held) (binding : Binding m₀ h p m)
    (fills : Supplies env (p.received keywords) p.keywordRegister 0 p.keywords
      (m.assign (p.keywordValues keywords)) vs runs m₁)
    (splatsplats : Splatsplats env p (p.unknown keywords) m₁ handle m₂) : Binding m₀ h p m₂ ∧
      (∀ r < p.keywordRegister 0, m₂.slot? r = m.slot? r) ∧
      (∀ k < p.keywords.length, ∃ v, vs[k]? = some v ∧ m₂.slot? (p.keywordRegister k) = some v) ∧
      (p.splat = true → (∀ run ∈ runs, Spares p run.1 run.2) →
        ∀ k, m.slot? p.splatRegister = some (.book k) → m₂.heap.get? k = m.heap.get? k) ∧
      (p.splatsplat = true → ∃ target, handle = some target ∧
        Collects m₀ h p target ((p.unknown keywords).foldl filed []) m₂) := by
  -- Keywords given go in first, defaults fill the registers left, and the codex comes last.
  have start := binding.keywords held
  have early : ∀ r < p.keywordRegister 0, (m.assign (p.keywordValues keywords)).slot? r =
      m.slot? r := by
    intro r before
    simp [Machine.slot_assign, Pattern.keywordValues, Nat.not_le.mpr before]
  obtain ⟨last, slot, kept, codex⟩ := splatsplats.collected calls orderly
    (fun k member => held k (List.mem_of_mem_filter member)) (fills.binding calls modest start)
  refine ⟨last, fun r before => ?_, fun k inside => ?_, fun has sparing k there => ?_, codex⟩
  · rw [slot r (Pattern.lt_keywordRegister before).ne, ← early r before]
    exact fills.slot calls modest start (Pattern.early_lt before)
      fun k _ _ _ => (Pattern.lt_keywordRegister before).ne'
  · have found := fills.values calls modest start (fun _ _ => Pattern.keywordRegister_injective)
      (fun j _ most => Pattern.keywordRegister_lt (by simpa using most))
      (fun j v _ most given => ?_)
    · obtain ⟨v, value, there⟩ := found k inside
      have other : p.keywordRegister k ≠ p.splatsplatRegister := fun same =>
        inside.ne (Pattern.keywordRegister_injective same)
      refine ⟨v, value, ?_⟩
      rw [slot _ other]
      simpa using there
    · obtain ⟨old, there⟩ := Option.isSome_iff_exists.mp
        (binding.wide _ (Pattern.keywordRegister_lt (i := j) (by simpa using most)))
      rw [Pattern.keywordRegister_eq p j] at there ⊢
      simp [Machine.slot_assign, there, Pattern.keywordValues, given]
  · have before := Pattern.splatRegister_lt_keyword has
    have here := (early _ before).trans there
    have apart : ∀ k, p.keywordRegister k ≠ p.splatRegister := fun k =>
      (Pattern.lt_keywordRegister before).ne'
    have still := fills.slot calls modest start (Pattern.splatRegister_lt has)
      fun k _ _ _ => apart k
    rw [kept p.splatRegister _ k (apart _).symm (still.trans here) rfl]
    exact fills.spares calls modest start has apart sparing here

/-- When a pattern that applies has been bound, its registers hold what they should. -/
theorem Applies.holds (applies : Applies env p args m bound entry) (calls : env.Calls False)
    (orderly : env.Orderly) (modest : ∀ start ∈ p.subPrograms, Modest env p start)
    (held : ∀ v ∈ args.values, v ∈ m₀.held) (binding : Binding m₀ h p m) :
    Holds p args bound entry := by
  obtain ⟨_, m₁, m₂, m₃, m₄, m₅, m₆, runs₁, runs₂, runs₃, runs₄, runs₅, supplies, splats, fills,
    splatsplats, matchesPositional, matchesKeywords, conditions, all⟩ := applies
  obtain ⟨bound₂, positional, book⟩ := positional_bound calls (modest_fallback modest .inl)
    (held_positional held) binding supplies splats
  obtain ⟨bound₄, early, keywords, spared, codex⟩ := keywords_bound calls orderly
    (modest_fallback modest .inr) (held_keywords held) bound₂ fills splatsplats
  obtain ⟨bound₅, same₅⟩ := matchesPositional.same calls orderly (modest_guard modest .inl) bound₄
  obtain ⟨bound₆, same₆⟩ := matchesKeywords.same calls orderly (modest_guard modest .inr) bound₅
  obtain ⟨_, same₇⟩ := conditions.same calls orderly (modest_condition modest) bound₆
  have same := same₅.trans (same₆.trans same₇)
  -- Guards and the condition run after everything is bound; sub-programs that leave the splats
  -- alone keep what was put there.
  have spares : (∀ run ∈ bound.runs, Spares p run.1 run.2) →
      (∀ run ∈ runs₂, Spares p run.1 run.2) ∧ Spares p m₄ entry := by
    intro sparing
    simp only [all, List.append_assoc, List.mem_append] at sparing
    refine ⟨fun run member => sparing run (.inr (.inl member)), same.spares fun run member => ?_⟩
    simp only [List.mem_append] at member
    exact sparing run (.inr (.inr member))
  have positionalHeld : ∀ k < p.positional.length, ∃ v, bound.positional[k]? = some v ∧
      entry.slot? k = some v := by
    intro k inside
    obtain ⟨v, value, there⟩ := positional k inside
    refine ⟨v, value, ?_⟩
    rw [same.slot k (Pattern.positional_lt inside),
      early k (Pattern.positional_lt_keyword inside), there]
  have keywordsHeld : ∀ k < p.keywords.length, ∃ v, bound.keywords[k]? = some v ∧
      entry.slot? (p.keywordRegister k) = some v := by
    intro k inside
    obtain ⟨v, value, there⟩ := keywords k inside
    exact ⟨v, value, (same.slot _ (Pattern.keywordRegister_lt inside)).trans there⟩
  refine ⟨fun k v inside given => ?_, positionalHeld, fun has => ?_, fun k v found => ?_,
    keywordsHeld, fun has => ?_⟩
  · obtain ⟨w, value, there⟩ := positionalHeld k inside
    rw [supplies.given_value inside (by simpa using given)] at value
    cases value
    exact there
  · obtain ⟨k, made, there, content⟩ := book has
    have here : m₄.slot? p.splatRegister = some (.book k) :=
      (early _ (Pattern.splatRegister_lt_keyword has)).trans there
    refine ⟨k, made, (same.slot _ (Pattern.splatRegister_lt has)).trans here, fun sparing => ?_⟩
    obtain ⟨sparing₂, last⟩ := spares sparing
    rw [last.book has k here, spared has sparing₂ k there, content]
  · obtain ⟨w, value, there⟩ := keywordsHeld k (received_lt found)
    rw [fills.given_value (received_lt found) (by simpa using found)] at value
    cases value
    exact there
  · obtain ⟨target, made, collects⟩ := codex has
    refine ⟨target, made, (same.slot _ (Pattern.splatsplatRegister_lt has)).trans collects.slot,
      fun sparing => ?_⟩
    obtain ⟨entries, used, spells⟩ := collects.content
    obtain ⟨still, keys⟩ := (spares sparing).2.codex has target collects.slot
    exact ⟨entries, still.trans used, spells.of_texts (keys entries used)⟩

end Entering

end JourneyMachine.Dispatch
