import JourneyMachine.Proofs.Seclusion.Operators

namespace JourneyMachine.Run

variable {α : Type} {s h : Handle} {env : Env} {P : α → Prop}

section Registers

theorem spares_onFrame {f : Frame → Except Fault (α × Frame)}
    (keeps : ∀ frame a after, frame.Avoids s → f frame = .ok (a, after) →
      after.Avoids s ∧ P a) : Spares s env (onFrame f) P := by
  intro o m secluded
  unfold onFrame
  split
  · trivial
  · rename_i frame rest frames
    split
    · rename_i a after same
      have own := secluded.frames frame (by simp [frames])
      obtain ⟨avoids, post⟩ := keeps frame a after own same
      refine ⟨{ secluded with frames := fun g member => ?_ }, rfl, post⟩
      rcases List.mem_cons.mp member with rfl | below
      · exact avoids
      · exact secluded.frames g (by rw [frames]; exact List.mem_cons_of_mem _ below)
    · trivial

/-- Looks at the frame on top. -/
theorem spares_readFrame {g : Frame → Except Fault α}
    (post : ∀ frame a, frame.Avoids s → g frame = .ok a → P a) :
    Spares s env (onFrame fun f => return (← g f, f)) P := by
  refine spares_onFrame fun frame a after avoids same => ?_
  cases read : g frame with
  | ok b =>
    rw [read] at same
    cases same
    exact ⟨avoids, post frame _ avoids read⟩
  | error fault =>
    rw [read] at same
    cases same

/-- Changes the position or the registers of the frame on top. -/
theorem spares_moveFrame {g : Frame → Except Fault Frame}
    (keeps : ∀ frame after, frame.Avoids s → g frame = .ok after → after.Avoids s) :
    Spares s env (onFrame fun f => return ((), ← g f)) := by
  refine spares_onFrame fun frame a after avoids same => ?_
  cases moved : g frame with
  | ok b =>
    rw [moved] at same
    cases same
    exact ⟨keeps frame _ avoids moved, trivial⟩
  | error fault =>
    rw [moved] at same
    cases same

theorem spares_register (i : Nat) : Spares s env (register i) (·.Avoids s) := by
  refine spares_readFrame fun frame v avoids same => ?_
  unfold Frame.register at same
  split at same
  · rename_i found
    cases same
    apply avoids
    have member := Array.mem_toList_iff.mpr (Array.mem_of_getElem? found)
    exact List.mem_append_left _ (List.mem_cons_of_mem _ member)
  · cases same

theorem spares_setRegister (i : Nat) {v : Value} (given : v.Avoids s) :
    Spares s env (setRegister i v) := by
  refine spares_moveFrame fun frame after avoids same w member => ?_
  unfold Frame.setRegister at same
  split at same <;> cases same
  simp only [Frame.links, Array.toList_setIfInBounds, List.cons_append, List.mem_cons,
    List.mem_append] at member
  rcases member with rfl | register | constant
  · exact avoids _ (by simp [Frame.links])
  · rcases List.mem_or_eq_of_mem_set register with before | rfl
    · exact avoids w (List.mem_append_left _ (List.mem_cons_of_mem _ before))
    · exact given
  · exact avoids w (List.mem_append_right _ constant)

theorem spares_jump (target : Nat) : Spares s env (jump target) := by
  refine spares_moveFrame fun frame after avoids same => ?_
  unfold Frame.jump at same
  split at same <;> cases same
  exact avoids

theorem spares_bindGiven (i : Nat) (parameters : List Parameter) {values : List Value}
    (given : ∀ v ∈ values, v.Avoids s) : Spares s env (bindGiven i parameters values) := by
  induction parameters generalizing i values with
  | nil => exact .pure trivial
  | cons parameter parameters ih =>
    cases values with
    | nil => exact .pure trivial
    | cons v values =>
      exact (spares_setRegister i (given v (List.mem_cons_self ..))).bind fun _ _ =>
        ih (i + 1) fun w member => given w (List.mem_cons_of_mem _ member)

/-- What is left over of the keywords was given. -/
theorem spares_bindKeywordArguments (pattern : Pattern) {keywords : List (String × Value)}
    (filled : List Nat) {extra : List (String × Value)} (given : ∀ k ∈ keywords, k.2.Avoids s)
    (left : ∀ k ∈ extra, k.2.Avoids s) :
    Spares s env (bindKeywordArguments pattern keywords filled extra) fun taken =>
      ∀ t, taken = some t → ∀ k ∈ t.2, k.2.Avoids s := by
  induction keywords generalizing filled extra with
  | nil =>
    refine .pure fun t same => ?_
    cases same
    exact left
  | cons keyword keywords ih =>
    have own := given keyword (List.mem_cons_self ..)
    have rest : ∀ k ∈ keywords, k.2.Avoids s := fun k member =>
      given k (List.mem_cons_of_mem _ member)
    unfold bindKeywordArguments
    split
    · exact (spares_setRegister _ own).bind fun _ _ => ih _ rest left
    · refine .ite (ih filled rest fun k member => ?_) (.pure fun _ same => by cases same)
      rcases List.mem_append.mp member with before | last
      · exact left k before
      · rw [List.mem_singleton.mp last]
        exact own

end Registers

section Binding

variable (calls : env.Spares s)
include calls

theorem spares_collectKeywords {target : Handle} (other : target ≠ s)
    {extra : List (String × Value)} (given : ∀ k ∈ extra, k.2.Avoids s) :
    Spares s env (collectKeywords target extra) := by
  induction extra with
  | nil => exact .pure trivial
  | cons keyword extra ih =>
    have own := given keyword (List.mem_cons_self ..)
    refine (spares_newText _).bind fun name made => ?_
    exact (spares_codexInsert calls other made own).bind fun _ _ =>
      ih fun k member => given k (List.mem_cons_of_mem _ member)

variable {evaluate : Nat → Run Value}
  (code : ∀ start, Spares s env (evaluate start) (·.Avoids s))
include code

omit calls in
theorem spares_bindDefaults (i : Nat) (parameters : List Parameter) :
    Spares s env (bindDefaults evaluate i parameters) := by
  induction parameters generalizing i with
  | nil => exact .pure trivial
  | cons parameter parameters ih =>
    unfold bindDefaults
    split
    · exact .pure trivial
    · exact (code _).bind fun _ own => (spares_setRegister _ own).bind fun _ _ => ih (i + 1)

omit calls in
theorem spares_bindKeywordDefaults (pattern : Pattern) (filled : List Nat) (i : Nat)
    (parameters : List Parameter) :
    Spares s env (bindKeywordDefaults evaluate pattern filled i parameters) := by
  induction parameters generalizing i with
  | nil => exact .pure trivial
  | cons parameter parameters ih =>
    refine .ite (ih (i + 1)) ?_
    split
    · exact .pure trivial
    · exact (code _).bind fun _ own => (spares_setRegister _ own).bind fun _ _ => ih (i + 1)

omit calls in
theorem spares_bindPositional (pattern : Pattern) {values : List Value}
    (given : ∀ v ∈ values, v.Avoids s) :
    Spares s env (bindPositional evaluate pattern values) := by
  have splat : ∀ pages, (Object.book pages).Avoids s → Spares s env (do
      let rest ← newBook pages
      setRegister pattern.splatRegister rest
      return true) := fun _ avoids =>
    (spares_newBook avoids).bind fun _ own =>
      (spares_setRegister _ own).bind fun _ _ => .pure trivial
  refine (spares_bindGiven 0 _ given).bind fun _ _ => .ite (.ite (splat _ ?_) (.pure trivial)) ?_
  · intro v member
    exact given v (List.mem_of_mem_drop (by simpa [Object.links] using member))
  · refine (spares_bindDefaults code _ _).bind fun _ _ => ?_
    exact .ite (.ite (splat _ (by simp)) (.pure trivial)) (.pure trivial)

theorem spares_bindKeywords (pattern : Pattern) {keywords : List (String × Value)}
    (given : ∀ k ∈ keywords, k.2.Avoids s) :
    Spares s env (bindKeywords evaluate pattern keywords) := by
  have empty : (Object.codex []).Avoids s := by simp
  refine (spares_bindKeywordArguments pattern [] given
    fun _ member => absurd member List.not_mem_nil).bind fun taken left => ?_
  cases taken with
  | none => exact .pure trivial
  | some taken =>
    refine (spares_bindKeywordDefaults code pattern _ 0 _).bind fun _ _ =>
      .ite (.ite ?_ (.pure trivial)) (.pure trivial)
    refine (Spares.allocate empty).bind fun target other => ?_
    refine (spares_setRegister _ ((Value.avoids_codex).mpr other)).bind fun _ _ => ?_
    exact (spares_collectKeywords calls other (left taken rfl)).bind fun _ _ => .pure trivial

theorem spares_checkGuards (registerOf : Nat → Nat) (i : Nat) (parameters : List Parameter) :
    Spares s env (checkGuards evaluate registerOf i parameters) := by
  induction parameters generalizing i with
  | nil => exact .pure trivial
  | cons parameter parameters ih =>
    unfold checkGuards
    split
    · exact ih (i + 1)
    · refine (code _).bind fun guard tested => (spares_register _).bind fun v given => ?_
      exact (Spares.withPinned (spares_fits calls tested given)).bind fun _ _ =>
        .ite (ih (i + 1)) (.pure trivial)

theorem spares_checkCondition (pattern : Pattern) :
    Spares s env (checkCondition evaluate pattern) := by
  unfold checkCondition
  split
  · exact .pure trivial
  · exact (code _).bind fun _ own => spares_toVeracity calls own

variable {args : Arguments} (given : ∀ v ∈ args.values, v.Avoids s)
include given

theorem spares_bindArguments (pattern : Pattern) :
    Spares s env (bindArguments evaluate pattern args) := by
  have positional : ∀ v ∈ args.positional, v.Avoids s := fun v member =>
    given v (List.mem_append_left _ member)
  have keywords : ∀ k ∈ args.keywords, k.2.Avoids s := fun k member =>
    given k.2 (List.mem_append_right _ (List.mem_map_of_mem member))
  exact (spares_bindPositional code pattern positional).bind fun _ _ => .ite (.pure trivial) <|
    (spares_bindKeywords calls code pattern keywords).bind fun _ _ => .ite (.pure trivial) <|
      (spares_checkGuards calls code _ _ _).bind fun _ _ => .ite (.pure trivial) <|
        (spares_checkGuards calls code _ _ _).bind fun _ _ => .ite (.pure trivial) <|
          spares_checkCondition calls code pattern

theorem spares_tryPatterns (other : h ≠ s) (name : String) {patterns : List Pattern}
    (constants : ∀ p ∈ patterns, ∀ v ∈ p.block.constants.toList, v.Avoids s) :
    Spares s env (tryPatterns evaluate h name args patterns) (·.Avoids s) := by
  induction patterns with
  | nil => exact spares_complain _
  | cons pattern patterns ih =>
    have attempt : Spares s env (do
        if ← bindArguments evaluate pattern args then return some (← evaluate pattern.start)
        else return none) fun result => ∀ v, result = some v → v.Avoids s := by
      refine (spares_bindArguments calls code given pattern).bind fun _ _ =>
        .ite ((code _).bind fun v own => .pure fun w same => ?_) (.pure fun _ same => by cases same)
      cases same
      exact own
    refine (Spares.withFrame other (constants pattern (List.mem_cons_self ..)) attempt).bind
      fun result own => ?_
    cases result with
    | some v => exact .pure (own v rfl)
    | none => exact ih fun p member => constants p (List.mem_cons_of_mem _ member)

theorem spares_callJourney (other : h ≠ s) :
    Spares s env (callJourney evaluate h args) (·.Avoids s) := by
  refine (spares_journey h).bind fun j own => .get fun _ _ _ => .ite (spares_complain _) ?_
  exact spares_tryPatterns calls code given other _ fun p member v constant =>
    own v (List.mem_flatMap.mpr ⟨p, member, constant⟩)

omit code given in
theorem spares_checkFields (name : String) {fields : List Matter} {values : List Value}
    (guards : ∀ field ∈ fields, ∀ g, field.guard = some g → g.Avoids s)
    (avoid : ∀ v ∈ values, v.Avoids s) : Spares s env (checkFields name fields values) := by
  induction fields generalizing values with
  | nil => exact .pure trivial
  | cons field fields ih =>
    cases values with
    | nil => exact .pure trivial
    | cons v values =>
      have rest := ih (fun f member => guards f (List.mem_cons_of_mem _ member))
        fun w member => avoid w (List.mem_cons_of_mem _ member)
      unfold checkFields
      split
      · exact rest
      · rename_i guard guarded
        have tested := guards field (List.mem_cons_self ..) guard guarded
        exact (spares_fits calls tested (avoid v (List.mem_cons_self ..))).bind fun _ _ =>
          .ite rest (spares_complain _)

theorem spares_imitate (other : h ≠ s) : Spares s env (imitate evaluate h args) (·.Avoids s) := by
  have positional : ∀ v ∈ args.positional, v.Avoids s := fun v member =>
    given v (List.mem_append_left _ member)
  refine (spares_form h).bind fun f own => ?_
  split
  · refine .ite (spares_complain _) (.ite (spares_complain _) ?_)
    refine (spares_checkFields calls f.name (fun _ => own.matter) positional).bind fun _ _ => ?_
    have avoids : (Object.imitation
        { form := h, matter := args.positional.toArray }).Avoids s := by
      simpa [other] using positional
    exact (Spares.allocate avoids).bind fun _ made => .pure ((Value.avoids_imitation).mpr made)
  · rename_i constructor declared
    have avoids : (Object.imitation
        { form := h, matter := Array.replicate f.matter.length .ni }).Avoids s := by
      simp [other]
    refine (Spares.allocate avoids).bind fun made fresh => ?_
    have own' := (Value.avoids_imitation).mpr fresh
    have extended : ∀ v ∈ ({ args with
        positional := .imitation made :: args.positional } : Arguments).values, v.Avoids s := by
      intro v member
      rcases List.mem_cons.mp member with rfl | before
      · exact own'
      · exact given v before
    have constructs := spares_callJourney calls code extended (own.constructor declared)
    exact (Spares.withPinned constructs.discard).bind fun _ _ => .pure own'

variable {callee : Value} (avoids : callee.Avoids s)
include avoids

theorem spares_call : Spares s env (call? evaluate callee args) fun found =>
    ∀ v, found = some v → v.Avoids s := by
  have returned : ∀ {c : Run Value}, Spares s env c (·.Avoids s) →
      Spares s env (do return some (← c)) fun found => ∀ v, found = some v → v.Avoids s := by
    refine fun spares => spares.bind fun v own => .pure fun w same => ?_
    cases same
    exact own
  refine .withPinned ?_
  cases callee
  case journey => exact returned (spares_callJourney calls code given ((Value.avoids_journey).mp avoids))
  case form => exact returned (spares_imitate calls code given ((Value.avoids_form).mp avoids))
  case other =>
    refine (spares_other _).bind fun object _ => ?_
    cases object with
    | host journey => exact returned (spares_callHost calls journey given)
    | _ => exact .pure fun _ same => by cases same
  all_goals exact .pure fun _ same => by cases same

theorem spares_callValue : Spares s env (callValue evaluate callee args) (·.Avoids s) := by
  refine (spares_call calls code given avoids).bind fun result own => ?_
  cases result with
  | some v => exact .pure (own v rfl)
  | none => exact spares_complainOf _ _

end Binding

end JourneyMachine.Run
