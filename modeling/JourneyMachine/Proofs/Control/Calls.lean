import JourneyMachine.Proofs.Control.Operators

namespace JourneyMachine.Run

variable {α : Type} {own : Nat} {env : Env} {m : Machine}

section Registers

/-- Code may change the frame it runs in, but for its shape. -/
theorem orderly_onFrame {f : Frame → Except Fault (α × Frame)}
    (shape : ∀ frame a changed, f frame = .ok (a, changed) → changed.shape = frame.shape)
    [sincere : ∀ frame, Sincere (f frame)] : Orderly 1 env (onFrame f) m := by
  unfold Orderly onFrame
  split
  · exact .fault trivial
  · rename_i frame rest frames
    split
    · rename_i a changed same
      refine ⟨⟨?_, ?_, rfl, rfl, rfl, .refl⟩, id, id⟩
      · rw [frames, List.map_cons, List.map_cons, shape frame a changed same]
      · rw [frames, List.drop_one, List.drop_one, List.tail_cons, List.tail_cons]
    · rename_i fault same
      exact .fault ((sincere frame).plain_of_eq same).justified

theorem orderly_readFrame (g : Frame → Except Fault α)
    [∀ frame, Sincere (g frame)] :
    Orderly 1 env (onFrame fun f => return (← g f, f)) m := by
  refine orderly_onFrame fun frame a changed same => ?_
  cases read : g frame with
  | ok b =>
    rw [read] at same
    cases same
    rfl
  | error fault =>
    rw [read] at same
    cases same

theorem orderly_moveFrame {g : Frame → Except Fault Frame}
    (shape : ∀ frame changed, g frame = .ok changed → changed.shape = frame.shape)
    [∀ frame, Sincere (g frame)] :
    Orderly 1 env (onFrame fun f => return ((), ← g f)) m := by
  refine orderly_onFrame fun frame a changed same => ?_
  cases moved : g frame with
  | ok after =>
    rw [moved] at same
    cases same
    exact shape frame _ moved
  | error fault =>
    rw [moved] at same
    cases same

theorem orderly_register (i : Nat) : Orderly 1 env (register i) m := orderly_readFrame _

theorem orderly_setRegister (i : Nat) (v : Value) : Orderly 1 env (setRegister i v) m := by
  refine orderly_moveFrame fun frame changed same => ?_
  unfold Frame.setRegister at same
  split at same <;> cases same
  simp only [Frame.shape, Array.size_setIfInBounds]

theorem orderly_jump (target : Nat) : Orderly 1 env (jump target) m := by
  refine orderly_moveFrame fun frame changed same => ?_
  unfold Frame.jump at same
  split at same <;> cases same
  rfl

theorem orderly_bindGiven (i : Nat) (parameters : List Parameter) (values : List Value) :
    Orderly 1 env (bindGiven i parameters values) m := by
  induction parameters generalizing i values m with
  | nil => exact .pure
  | cons parameter parameters ih =>
    cases values with
    | nil => exact .pure
    | cons v values => exact (orderly_setRegister i v).bind fun _ _ => ih (i + 1) values

theorem orderly_bindKeywordArguments (pattern : Pattern) (keywords : List (String × Value))
    (filled : List Nat) (extra : List (String × Value)) :
    Orderly 1 env (bindKeywordArguments pattern keywords filled extra) m := by
  induction keywords generalizing filled extra m with
  | nil => exact .pure
  | cons keyword keywords ih =>
    unfold bindKeywordArguments
    split
    · exact (orderly_setRegister ..).bind fun _ _ => ih ..
    · exact .ite (ih ..) .pure

end Registers

section Binding

variable (calls : env.Orderly)
include calls

theorem orderly_collectKeywords (target : Handle) (extra : List (String × Value)) :
    Orderly own env (collectKeywords target extra) m := by
  induction extra generalizing m with
  | nil => exact .pure
  | cons keyword extra ih =>
    exact (orderly_newText _).bind fun _ _ => (orderly_codexInsert calls ..).bind fun _ _ => ih

variable {evaluate : Nat → Run Value} (code : ∀ start m', Orderly 1 env (evaluate start) m')
include code

omit calls in
theorem orderly_bindDefaults (i : Nat) (parameters : List Parameter) :
    Orderly 1 env (bindDefaults evaluate i parameters) m := by
  induction parameters generalizing i m with
  | nil => exact .pure
  | cons parameter parameters ih =>
    unfold bindDefaults
    split
    · exact .pure
    · exact (code ..).bind fun _ _ => (orderly_setRegister ..).bind fun _ _ => ih (i + 1)

omit calls in
theorem orderly_bindKeywordDefaults (pattern : Pattern) (filled : List Nat) (i : Nat)
    (parameters : List Parameter) :
    Orderly 1 env (bindKeywordDefaults evaluate pattern filled i parameters) m := by
  induction parameters generalizing i m with
  | nil => exact .pure
  | cons parameter parameters ih =>
    refine .ite (ih (i + 1)) ?_
    split
    · exact .pure
    · exact (code ..).bind fun _ _ => (orderly_setRegister ..).bind fun _ _ => ih (i + 1)

omit calls in
theorem orderly_bindPositional (pattern : Pattern) (values : List Value) :
    Orderly 1 env (bindPositional evaluate pattern values) m := by
  have splat : ∀ pages {m'}, Orderly 1 env (do
      let rest ← newBook pages
      setRegister pattern.splatRegister rest
      return true) m' := fun _ _ =>
    (orderly_newBook _).bind fun _ _ => (orderly_setRegister ..).bind fun _ _ => .pure
  refine (orderly_bindGiven ..).bind fun _ _ => .ite (.ite (splat _) .pure) ?_
  refine (orderly_bindDefaults code ..).bind fun _ _ => .ite (.ite (splat _) .pure) .pure

theorem orderly_bindKeywords (pattern : Pattern) (keywords : List (String × Value)) :
    Orderly 1 env (bindKeywords evaluate pattern keywords) m := by
  refine (orderly_bindKeywordArguments ..).bind fun taken m₁ => ?_
  cases taken with
  | none => exact .pure
  | some taken =>
    refine (orderly_bindKeywordDefaults code ..).bind fun _ _ => .ite (.ite ?_ .pure) .pure
    exact (Orderly.allocate _).bind fun _ _ => (orderly_setRegister ..).bind fun _ _ =>
      (orderly_collectKeywords calls ..).bind fun _ _ => .pure

theorem orderly_checkGuards (registerOf : Nat → Nat) (i : Nat) (parameters : List Parameter) :
    Orderly 1 env (checkGuards evaluate registerOf i parameters) m := by
  induction parameters generalizing i m with
  | nil => exact .pure
  | cons parameter parameters ih =>
    unfold checkGuards
    split
    · exact ih (i + 1)
    · refine (code ..).bind fun guard _ => (orderly_register _).bind fun v _ => ?_
      exact (Orderly.withPinned (orderly_fits calls guard v)).bind fun _ _ =>
        .ite (ih (i + 1)) .pure

theorem orderly_checkCondition (pattern : Pattern) :
    Orderly 1 env (checkCondition evaluate pattern) m := by
  unfold checkCondition
  split
  · exact .pure
  · exact (code ..).bind fun _ _ => orderly_toVeracity calls _

theorem orderly_bindArguments (pattern : Pattern) (args : Arguments) :
    Orderly 1 env (bindArguments evaluate pattern args) m :=
  (orderly_bindPositional code ..).bind fun _ _ => .ite .pure <|
    (orderly_bindKeywords calls code ..).bind fun _ _ => .ite .pure <|
      (orderly_checkGuards calls code ..).bind fun _ _ => .ite .pure <|
        (orderly_checkGuards calls code ..).bind fun _ _ => .ite .pure <|
          orderly_checkCondition calls code pattern

theorem orderly_attempt (pattern : Pattern) (args : Arguments) :
    Orderly 1 env (do
      if ← bindArguments evaluate pattern args then return some (← evaluate pattern.start)
      else return none) m :=
  (orderly_bindArguments calls code ..).bind fun _ _ =>
    .ite ((code ..).bind fun _ _ => .pure) .pure

theorem orderly_tryPatterns (h : Handle) (name : String) (args : Arguments)
    (patterns : List Pattern) (room : m.frames.length < m.settings.maxFrames) :
    Orderly own env (tryPatterns evaluate h name args patterns) m := by
  induction patterns generalizing m with
  | nil => exact orderly_complain _
  | cons pattern patterns ih =>
    -- A refused pattern leaves as many frames as there were, so there is room for the next one.
    refine (Orderly.withFrame room (orderly_attempt calls code pattern args)).seq
      fun result m' _ moves => ?_
    cases result with
    | some v => exact .pure
    | none => exact ih (by rwa [moves.length, moves.settings])

theorem orderly_callJourney (h : Handle) (args : Arguments) :
    Orderly own env (callJourney evaluate h args) m := by
  refine (Orderly.onHeap).bind fun j m₁ => .get ?_
  split
  · exact orderly_complain _
  · rename_i room
    exact orderly_tryPatterns calls code _ _ _ _ (Nat.lt_of_not_le room)

omit code in
theorem orderly_checkFields (name : String) (fields : List Matter) (values : List Value) :
    Orderly own env (checkFields name fields values) m := by
  induction fields generalizing values m with
  | nil => exact .pure
  | cons field fields ih =>
    cases values with
    | nil => exact .pure
    | cons v values =>
      unfold checkFields
      split
      · exact ih values
      · exact (orderly_fits calls ..).bind fun _ _ => .ite (ih values) (orderly_complain _)

theorem orderly_imitate (h : Handle) (args : Arguments) :
    Orderly own env (imitate evaluate h args) m := by
  refine (Orderly.onHeap).bind fun f m₁ => ?_
  split
  · refine .ite (orderly_complain _) (.ite (orderly_complain _) ?_)
    exact (orderly_checkFields calls ..).bind fun _ _ => (Orderly.allocate _).bind fun _ _ => .pure
  · refine (Orderly.allocate _).bind fun made _ => ?_
    exact (Orderly.withPinned (orderly_callJourney calls code ..).discard).bind fun _ _ => .pure

theorem orderly_call (callee : Value) (args : Arguments) :
    Orderly own env (call? evaluate callee args) m := by
  refine .withPinned ?_
  cases callee
  case journey => exact (orderly_callJourney calls code ..).bind fun _ _ => .pure
  case form => exact (orderly_imitate calls code ..).bind fun _ _ => .pure
  case other =>
    refine (Orderly.onHeap).bind fun object m₁ => ?_
    cases object with
    | host journey => exact (orderly_callHost calls ..).bind fun _ _ => .pure
    | _ => exact .pure
  all_goals exact .pure

theorem orderly_callValue (callee : Value) (args : Arguments) :
    Orderly own env (callValue evaluate callee args) m := by
  refine (orderly_call calls code callee args).bind fun result m₁ => ?_
  cases result with
  | some v => exact .pure
  | none => exact orderly_complainOf ..

end Binding

end JourneyMachine.Run
