import JourneyMachine.Proofs.Closure.Frames

namespace JourneyMachine.Run

open Machine (Within Active)

/-- What running the code of a frame from an entry point gives. -/
def Evaluates (strict : Prop) (env : Env) (evaluate : Nat → Run Value) : Prop :=
  ∀ {m₀ m : Machine} {h : Handle} {p : Pattern} (start : Nat),
    Meets (.active strict m₀ h p) env (evaluate start) m fun v m' => m'.heap.Refers v

variable {strict : Prop} {R : Region strict} {env : Env} {m m₀ : Machine} {h : Handle} {p : Pattern}
  {evaluate : Nat → Run Value}

section Binding

theorem active_refers (active : Active strict m₀ h p m) {v : Value} (held : v ∈ m₀.held) :
    m.heap.Refers v :=
  active.closed.held (active.held_sub held)

theorem meets_bindGiven (i : Nat) {parameters : List Parameter} {values : List Value}
    (held : ∀ v ∈ values, v ∈ m₀.held) :
    Meets (.active strict m₀ h p) env (bindGiven i parameters values) m fun _ _ => True := by
  induction parameters generalizing i values m with
  | nil => exact .pure fun _ => trivial
  | cons parameter rest ih =>
    cases values with
    | nil => exact .pure fun _ => trivial
    | cons v values =>
      refine .intro fun active => ?_
      exact (meets_setRegister i (active_refers active (held v (List.mem_cons_self ..)))).bind
        fun _ _ _ _ => ih (i + 1) fun w member => held w (List.mem_cons_of_mem _ member)

section Defaults

variable (evaluates : Evaluates strict env evaluate)
include evaluates

theorem meets_bindDefaults (i : Nat) (parameters : List Parameter) :
    Meets (.active strict m₀ h p) env (bindDefaults evaluate i parameters) m fun _ _ => True := by
  induction parameters generalizing i m with
  | nil => exact .pure fun _ => trivial
  | cons parameter rest ih =>
    unfold bindDefaults
    split
    · exact .pure fun _ => trivial
    · rename_i start _
      refine (evaluates start).bind fun v m' _ refers => ?_
      exact (meets_setRegister i refers).bind fun _ _ _ _ => ih (i + 1)

theorem meets_bindPositional (pattern : Pattern) {values : List Value}
    (held : ∀ v ∈ values, v ∈ m₀.held) :
    Meets (.active strict m₀ h p) env (bindPositional evaluate pattern values) m
      fun _ _ => True := by
  refine (meets_bindGiven 0 held).bind fun _ m' _ _ => ?_
  split
  · split
    · refine (meets_newBook fun active v member => ?_).bind fun rest m₁ _ refers => ?_
      · exact active_refers active (held v (List.mem_of_mem_drop (by simpa using member)))
      · exact (meets_setRegister _ refers).bind fun _ _ _ _ => .pure fun _ => trivial
    · exact .pure fun _ => trivial
  · refine (meets_bindDefaults evaluates _ _).bind fun bound m₁ _ _ => ?_
    cases bound with
    | false => exact .pure fun _ => trivial
    | true =>
      rw [if_pos rfl]
      split
      · refine (meets_newBook (by simp)).bind fun rest m₂ _ refers => ?_
        exact (meets_setRegister _ refers).bind fun _ _ _ _ => .pure fun _ => trivial
      · exact .pure fun _ => trivial

theorem meets_bindKeywordDefaults (pattern : Pattern) (filled : List Nat) (i : Nat)
    (parameters : List Parameter) :
    Meets (.active strict m₀ h p) env (bindKeywordDefaults evaluate pattern filled i parameters) m
      fun _ _ => True := by
  induction parameters generalizing i m with
  | nil => exact .pure fun _ => trivial
  | cons parameter rest ih =>
    unfold bindKeywordDefaults
    split
    · exact ih (i + 1)
    · split
      · exact .pure fun _ => trivial
      · rename_i start _
        refine (evaluates start).bind fun v m' _ refers => ?_
        exact (meets_setRegister _ refers).bind fun _ _ _ _ => ih (i + 1)

end Defaults

theorem meets_bindKeywordArguments (pattern : Pattern) {keywords : List (String × Value)}
    (filled : List Nat) (extra : List (String × Value))
    (held : ∀ k ∈ keywords ++ extra, k.2 ∈ m₀.held) :
    Meets (.active strict m₀ h p) env (bindKeywordArguments pattern keywords filled extra) m
      fun bound _ => ∀ filled extra, bound = some (filled, extra) → ∀ k ∈ extra, k.2 ∈ m₀.held := by
  induction keywords generalizing filled extra m with
  | nil =>
    refine .pure fun _ _ _ same k member => held k ?_
    cases same
    exact member
  | cons keyword rest ih =>
    obtain ⟨name, v⟩ := keyword
    have later : ∀ k ∈ rest ++ extra, k.2 ∈ m₀.held := fun k member =>
      held k (List.mem_cons_of_mem _ member)
    unfold bindKeywordArguments
    split
    · rename_i i _
      refine .intro fun active => ?_
      have refers := active_refers active (held (name, v) (List.mem_cons_self ..))
      exact (meets_setRegister _ refers).bind fun _ _ _ _ => ih (i :: filled) _ later
    · split
      · refine ih filled _ fun k member => ?_
        rcases List.mem_append.mp member with first | second
        · exact later k (List.mem_append_left _ first)
        · rcases List.mem_append.mp second with old | new
          · exact later k (List.mem_append_right _ old)
          · rw [List.mem_singleton.mp new]
            exact held (name, v) (List.mem_cons_self ..)
      · exact .pure fun _ _ _ same => by cases same

variable (calls : env.Calls strict)
include calls

theorem meets_collectKeywords {target : Handle} {extra : List (String × Value)}
    (held : .codex target ∈ m₀.held) (heldExtra : ∀ k ∈ extra, k.2 ∈ m₀.held) :
    Meets (.within strict m₀) env (collectKeywords target extra) m fun _ _ => True := by
  induction extra generalizing m with
  | nil => exact .pure fun _ => trivial
  | cons keyword rest ih =>
    obtain ⟨name, v⟩ := keyword
    refine (meets_newText name).bind fun key m' within refers => ?_
    have value := within.refers (heldExtra (name, v) (List.mem_cons_self ..))
    exact (meets_codexInsert calls held refers value).bind fun _ _ _ _ =>
      ih fun k member => heldExtra k (List.mem_cons_of_mem _ member)

variable (evaluates : Evaluates strict env evaluate)
include evaluates

theorem meets_bindKeywords (pattern : Pattern) {keywords : List (String × Value)}
    (held : ∀ k ∈ keywords, k.2 ∈ m₀.held) :
    Meets (.active strict m₀ h p) env (bindKeywords evaluate pattern keywords) m
      fun _ _ => True := by
  refine (meets_bindKeywordArguments pattern [] [] (by simpa using held)).bind
    fun bound m' _ post => ?_
  cases bound with
  | none => exact .pure fun _ => trivial
  | some bound =>
    obtain ⟨filled, extra⟩ := bound
    refine (meets_bindKeywordDefaults evaluates pattern filled 0 pattern.keywords).bind
      fun complete m₁ _ _ => ?_
    cases complete with
    | false => exact .pure fun _ => trivial
    | true =>
      rw [if_pos rfl]
      split
      · refine (meets_allocate (o := .codex []) (by simp [Object.genus])
          (by simp [Object.links])).bind fun target m₂ _ placed => ?_
        refine (meets_setRegister _ ((Heap.refers_codex).mpr placed.holds)).bind
          fun _ m₃ active stored => ?_
        refine Meets.bind (P := fun _ _ => True) (.lift (meets_collectKeywords calls
          (Machine.top_sub_held stored.2) fun k member => ?_)) fun _ _ _ _ =>
            .pure fun _ => trivial
        exact active.held_sub (post filled extra rfl k member)
      · exact .pure fun _ => trivial

theorem meets_checkGuards (registerOf : Nat → Nat) (i : Nat) (parameters : List Parameter) :
    Meets (.active strict m₀ h p) env (checkGuards evaluate registerOf i parameters) m
      fun _ _ => True := by
  induction parameters generalizing i m with
  | nil => exact .pure fun _ => trivial
  | cons parameter rest ih =>
    unfold checkGuards
    split
    · exact ih (i + 1)
    · rename_i start _
      refine (evaluates start).bind fun guard m₁ _ refers => ?_
      refine (meets_register (registerOf i)).bind ?_
      rintro v m₂ _ ⟨rfl, f, below, frames, found⟩
      have member := Machine.mem_top frames found
      refine (Meets.withPinned (Q := fun _ _ => True)
        (fun _ => List.forall_mem_singleton.mpr refers)
        (meets_fits calls (fun _ => .root (Machine.held_pinned (List.mem_singleton_self guard)))
          (Machine.held_pin (Machine.top_sub_held member)))).bind fun fitting m₃ _ _ => ?_
      cases fitting with
      | true => exact ih (i + 1)
      | false => exact .pure fun _ => trivial

theorem meets_checkCondition (pattern : Pattern) :
    Meets (.active strict m₀ h p) env (checkCondition evaluate pattern) m fun _ _ => True := by
  unfold checkCondition
  split
  · exact .pure fun _ => trivial
  · rename_i start _
    exact (evaluates start).bind fun _ _ _ refers => meets_toVeracity calls refers

theorem meets_bindArguments (pattern : Pattern) {args : Arguments}
    (held : ∀ v ∈ args.values, v ∈ m₀.held) :
    Meets (.active strict m₀ h p) env (bindArguments evaluate pattern args) m fun _ _ => True := by
  refine (meets_bindPositional evaluates pattern fun v member =>
    held v (List.mem_append_left _ member)).bind fun bound m₁ _ _ => ?_
  cases bound with
  | false => exact .pure fun _ => trivial
  | true =>
    refine (meets_bindKeywords calls evaluates pattern fun k member => held k.2
      (List.mem_append_right _ (List.mem_map.mpr ⟨k, member, rfl⟩))).bind fun bound m₂ _ _ => ?_
    cases bound with
    | false => exact .pure fun _ => trivial
    | true =>
      refine (meets_checkGuards calls evaluates id 0 pattern.positional).bind fun fit m₃ _ _ => ?_
      cases fit with
      | false => exact .pure fun _ => trivial
      | true =>
        refine (meets_checkGuards calls evaluates pattern.keywordRegister 0 pattern.keywords).bind
          fun fit m₄ _ _ => ?_
        cases fit with
        | false => exact .pure fun _ => trivial
        | true => exact meets_checkCondition calls evaluates pattern

end Binding

section Calling

variable (calls : env.Calls strict)
include calls

/-- The guards of a form that is held are matched one after the other. -/
theorem meets_checkFields (name : String) {fields : List Matter} {values : List Value}
    (firm : strict → ∀ field ∈ fields, ∀ g, field.guard = some g → Heap.Firm m₀.held m₀.heap g)
    (held : ∀ v ∈ values, v ∈ m₀.held) :
    Meets (.within strict m₀) env (checkFields name fields values) m fun _ _ => True := by
  induction fields generalizing values m with
  | nil => exact .pure fun _ => trivial
  | cons field rest ih =>
    cases values with
    | nil => exact .pure fun _ => trivial
    | cons v values =>
      have later : ∀ m', Meets (.within strict m₀) env (checkFields name rest values) m'
          fun _ _ => True := fun m' =>
        ih (fun assumed field member => firm assumed field (List.mem_cons_of_mem _ member))
          fun w member => held w (List.mem_cons_of_mem _ member)
      unfold checkFields
      split
      · exact later m
      · rename_i guard same
        refine .intro fun within => ?_
        refine (meets_fits calls (fun assumed => ?_)
          (within.held.symm ▸ held v (List.mem_cons_self ..))).bind fun fitting m' _ _ => ?_
        · rw [within.held]
          exact within.firm assumed (firm assumed field (List.mem_cons_self ..) guard same)
        · cases fitting with
          | true => exact later m'
          | false => exact meets_complain _

variable (evaluates : Evaluates strict env evaluate)
include evaluates

theorem meets_tryPatterns (name : String) {args : Arguments} {j : Journey} {patterns : List Pattern}
    (used : m₀.heap.get? h = some (.journey j)) (sub : ∀ p ∈ patterns, p ∈ j.patterns)
    (stays : ∀ m', Within strict m₀ m' → m'.heap.Holds .journey h)
    (held : ∀ v ∈ args.values, v ∈ m₀.held) :
    Meets (.within strict m₀) env (tryPatterns evaluate h name args patterns) m
      fun v m' => m'.heap.Refers v := by
  induction patterns generalizing m with
  | nil => exact meets_complain _
  | cons pattern rest ih =>
    refine .intro fun within => ?_
    have here := within.evolves.journey used (stays m within)
    refine (Meets.withFrame (Q := fun found heap => ∀ v, found = some v → heap.Refers v) here
      (sub pattern (List.mem_cons_self ..)) ?_).bind fun found m' region post => ?_
    · refine (meets_bindArguments calls evaluates pattern fun v member =>
        within.held.symm ▸ held v member).bind fun bound m₁ _ _ => ?_
      cases bound with
      | false => exact .pure fun _ _ same => by cases same
      | true =>
        exact (evaluates pattern.start).bind fun v _ _ refers =>
          .pure fun _ _ same => Option.some.inj same ▸ refers
    · cases found with
      | some v => exact .pure fun _ => post v rfl
      | none => exact ih fun p member => sub p (List.mem_cons_of_mem _ member)

theorem meets_callJourney {args : Arguments}
    (stays : ∀ m', Within strict m₀ m' → m'.heap.Holds .journey h)
    (held : ∀ v ∈ args.values, v ∈ m₀.held) :
    Meets (.within strict m₀) env (callJourney evaluate h args) m
      fun v m' => m'.heap.Refers v := by
  refine .intro fun within => ?_
  refine (meets_journey fun _ => stays m within).bind ?_
  rintro j m' region ⟨rfl, used⟩
  refine .get (fun _ => rfl) ?_
  split
  · exact meets_complain _
  · exact meets_tryPatterns calls evaluates j.name (region.evolves.journeys h j used)
      (fun _ member => member) stays held

theorem meets_imitate {args : Arguments} (held : .form h ∈ m₀.held)
    (heldArgs : ∀ v ∈ args.values, v ∈ m₀.held) :
    Meets (.within strict m₀) env (imitate evaluate h args) m fun v m' => m'.heap.Refers v := by
  refine .intro fun start => .lift (.intro fun within => ?_)
  have heldHere : .form h ∈ m.held := start.held.symm ▸ held
  have heldArgsHere : ∀ v ∈ args.values, v ∈ m.held := fun v member =>
    start.held.symm ▸ heldArgs v member
  refine (meets_form fun _ => (Heap.refers_form).mp (within.refers heldHere)).bind ?_
  rintro f m' region ⟨rfl, used⟩
  split
  · split
    · exact meets_complain _
    · split
      · exact meets_complain _
      · rename_i count
        refine (meets_checkFields calls f.name (fun _ field member g same => ?_) fun v member =>
          heldArgsHere v (List.mem_append_left _ member)).bind fun _ m₁ region _ => ?_
        · refine .guard (.form heldHere) used (List.mem_append_right _ ?_)
          exact List.mem_filterMap.mpr ⟨field, member, same⟩
        · refine (meets_made (by simp [Object.genus]) (fun _ v member => ?_)
            fun _ _ i same => ?_).bind fun _ _ _ placed =>
              .pure fun _ => (Heap.refers_imitation).mpr placed.holds
          · rcases List.mem_cons.mp member with rfl | field
            · exact region.refers heldHere
            · exact region.refers (heldArgsHere v (List.mem_append_left _ (by simpa using field)))
          · cases same
            obtain ⟨after, still, fields⟩ :=
              region.evolves.matter used ((Heap.refers_form).mp (region.refers heldHere))
            exact ⟨after, still, fields.trans (by simpa using (not_not.mp count).symm)⟩
  · rename_i constructor constructed
    refine (meets_made (o := .imitation { form := h, matter := _ })
      (by simp [Object.genus]) (fun region v member => ?_) fun _ _ i same => ?_).bind
        fun made m₁ region placed => ?_
    · rcases List.mem_cons.mp member with rfl | field
      · exact region.refers heldHere
      · rw [Array.toList_replicate] at field
        rw [List.eq_of_mem_replicate field]
        exact Heap.refers_ni
    · cases same
      exact ⟨f, used, by simp⟩
    · have form : m₁.heap.get? h = some (.form f) :=
        (placed.held within.closed heldHere rfl).1.trans used
      have heldForm : .form h ∈ (m₁.pin [.imitation made]).held :=
        Machine.held_pin (region.held.symm ▸ heldHere)
      refine (Meets.withPinned (Q := fun _ _ => True) (fun _ => List.forall_mem_singleton.mpr
        ((Heap.refers_imitation).mpr placed.holds)) ?_).bind fun _ m₂ _ post =>
          .pure fun _ => List.forall_mem_singleton.mp post.1
      refine (Meets.discard (meets_callJourney calls evaluates (fun m' later => ?_)
        fun v member => ?_)).weaken fun _ _ _ _ => trivial
      · exact later.evolves.constructor later.closed.heap form constructed
          ((Heap.refers_form).mp (later.refers heldForm))
      · rcases List.mem_cons.mp member with rfl | arg
        · exact Machine.held_pinned (List.mem_singleton_self _)
        · exact Machine.held_pin (region.held.symm ▸ heldArgsHere v arg)

theorem meets_call? {callee : Value} {args : Arguments}
    (refer : ∀ v ∈ callee :: args.values, m.heap.Refers v) :
    Meets R env (call? evaluate callee args) m fun found m' =>
      (∀ v ∈ callee :: args.values, m'.heap.Refers v) ∧
        ∀ v, found = some v → m'.heap.Refers v := by
  refine Meets.withPinned (Q := fun found heap => ∀ v, found = some v → heap.Refers v)
    (fun _ => refer) ?_
  have held : ∀ v ∈ callee :: args.values, v ∈ (m.pin (callee :: args.values)).held :=
    fun v member => Machine.held_pinned member
  have heldArgs : ∀ v ∈ args.values, v ∈ (m.pin (callee :: args.values)).held :=
    fun v member => held v (List.mem_cons_of_mem _ member)
  have heldCallee := held callee (List.mem_cons_self ..)
  -- The callee and the arguments stay pinned, so the result is held whichever way it is made.
  have some_ : ∀ {c : Run Value} {m₁ : Machine},
      Meets (.within strict (m.pin (callee :: args.values))) env c m₁
        (fun v m' => m'.heap.Refers v) →
      Meets (.within strict (m.pin (callee :: args.values))) env (do return some (← c)) m₁
        fun found m' => ∀ v, found = some v → m'.heap.Refers v := fun meets =>
    meets.bind fun _ _ _ refers => .pure fun _ _ same => Option.some.inj same ▸ refers
  cases callee with
  | journey h =>
    exact some_ (meets_callJourney calls evaluates
      (fun m' later => (Heap.refers_journey).mp (later.refers heldCallee)) heldArgs)
  | form h => exact some_ (meets_imitate calls evaluates heldCallee heldArgs)
  | other h =>
    have there : m.heap.Holds .other h := (Heap.refers_other).mp (refer _ (List.mem_cons_self ..))
    dsimp only
    refine (meets_other (m := m.pin _) fun _ => there).bind ?_
    rintro o m' _ ⟨rfl, _⟩
    split
    · exact some_ (meets_callHost calls heldArgs)
    · exact .pure fun _ _ same => by cases same
  | ni | veracity | numeral | text | imitation | book | codex =>
    exact .pure fun _ _ same => by cases same

theorem meets_callValue {callee : Value} {args : Arguments}
    (refer : ∀ v ∈ callee :: args.values, m.heap.Refers v) :
    Meets R env (callValue evaluate callee args) m fun v m' =>
      m'.heap.Refers v ∧ ∀ w ∈ callee :: args.values, m'.heap.Refers w := by
  refine (meets_call? calls evaluates refer).bind ?_
  rintro found m' _ ⟨still, post⟩
  cases found with
  | some v => exact .pure fun _ => ⟨post v rfl, still⟩
  | none => exact meets_complain_type fun _ => still callee (List.mem_cons_self ..)

end Calling

/-- A journey that is gone is found out before its frame is made. -/
theorem callValue_stale {args : Arguments} (gone : ¬ m.heap.Holds .journey h) :
    ∃ fault, ∀ n, callValue evaluate (.journey h) args env (m.withBudget n) =
      .error (.fatal fault) (m.withBudget n) := by
  have missing : ∃ fault, m.heap.journey h = .error fault := by
    cases same : m.heap.journey h with
    | error fault => exact ⟨fault, rfl⟩
    | ok j => exact absurd (Heap.holds_journey (Heap.journey_ok same)) gone
  obtain ⟨fault, same⟩ := missing
  refine ⟨fault, fun n => ?_⟩
  generalize start : (m.withBudget n).pin (.journey h :: args.values) = pinned
  have there : pinned.heap.journey h = .error fault := by
    rw [← start]
    exact same
  have read : callJourney evaluate h args env pinned = .error (.fatal fault) pinned :=
    bind_error (by
      change onHeap (·.journey h) env pinned = _
      simp only [onHeap, there])
  have attempt : call? evaluate (.journey h) args env (m.withBudget n) =
      .error (.fatal fault) (m.withBudget n) := by
    have inside : (do return some (← callJourney evaluate h args) : Run (Option Value)) env pinned =
        .error (.fatal fault) pinned := bind_error read
    rw [← start] at inside
    refine (withPinned_eq _ _ env (m.withBudget n)).trans
      ((congrArg (release m.pinned.length) inside).trans ?_)
    exact congrArg (EStateM.Result.error (Unwind.fatal fault)) ((m.withBudget n).unpin_pin _)
  exact bind_error attempt

end JourneyMachine.Run
