import JourneyMachine.Proofs.Closure.Permanence
import JourneyMachine.Proofs.Composition.Operations

namespace JourneyMachine.Run

variable {P : (α : Type) → Run α → Prop} {α : Type} {c : Run α}

section Operands

instance composed_register {i : Nat} : Composed P (register i) := composed_onFrame

instance composed_setRegister {i : Nat} {v : Value} : Composed P (setRegister i v) :=
  composed_onFrame

instance composed_jump {target : Nat} : Composed P (jump target) := composed_onFrame

instance composed_nextWord : Composed P nextWord := composed_onFrame

instance composed_nextIndex : Composed P nextIndex := composed_bind

instance composed_nextValue : Composed P nextValue := composed_bind

instance composed_store {v : Value} : Composed P (store v) := composed_bind

instance composed_nextConstant : Composed P nextConstant := composed_bind

instance composed_nextName : Composed P nextName := composed_bind

instance composed_nextValues {count : Nat} : Composed P (nextValues count) := by
  induction count with
  | zero => exact composed_pure
  | succ count ih =>
    unfold nextValues
    infer_instance

instance composed_nextPairs {count : Nat} : Composed P (nextPairs count) := by
  induction count with
  | zero => exact composed_pure
  | succ count ih =>
    unfold nextPairs
    infer_instance

instance composed_nextKeywords {count : Nat} : Composed P (nextKeywords count) := by
  induction count with
  | zero => exact composed_pure
  | succ count ih =>
    unfold nextKeywords
    infer_instance

instance composed_countedValues : Composed P countedValues := composed_bind

end Operands

section Binding

variable {evaluate : Nat → Run Value} [runs : ∀ start, Composed P (evaluate start)]
  {pattern : Pattern} {args : Arguments} {parameters : List Parameter} {h : Handle}

omit runs in
instance composed_bindGiven {i : Nat} {values : List Value} :
    Composed P (bindGiven i parameters values) := by
  induction parameters generalizing i values with
  | nil => exact composed_pure
  | cons parameter rest ih =>
    cases values with
    | nil => exact composed_pure
    | cons v values =>
      unfold bindGiven
      infer_instance

instance composed_bindDefaults {i : Nat} : Composed P (bindDefaults evaluate i parameters) := by
  induction parameters generalizing i with
  | nil => exact composed_pure
  | cons parameter rest ih =>
    unfold bindDefaults
    split <;> infer_instance

instance composed_bindPositional {values : List Value} :
    Composed P (bindPositional evaluate pattern values) := by
  unfold bindPositional
  infer_instance

omit runs in
instance composed_bindKeywordArguments {given extra : List (String × Value)} {filled : List Nat} :
    Composed P (bindKeywordArguments pattern given filled extra) := by
  induction given generalizing filled extra with
  | nil => exact composed_pure
  | cons argument rest ih =>
    unfold bindKeywordArguments
    split <;> infer_instance

instance composed_bindKeywordDefaults {filled : List Nat} {i : Nat} :
    Composed P (bindKeywordDefaults evaluate pattern filled i parameters) := by
  induction parameters generalizing i with
  | nil => exact composed_pure
  | cons parameter rest ih =>
    refine .ite inferInstance ?_
    split <;> infer_instance

omit runs in
instance composed_collectKeywords {target : Handle} {extra : List (String × Value)} :
    Composed P (collectKeywords target extra) := by
  induction extra with
  | nil => exact composed_pure
  | cons argument rest ih =>
    unfold collectKeywords
    infer_instance

instance composed_bindKeywords {keywords : List (String × Value)} :
    Composed P (bindKeywords evaluate pattern keywords) :=
  .option inferInstance (fun _ => inferInstance) composed_pure

instance composed_checkGuards {registerOf : Nat → Nat} {i : Nat} :
    Composed P (checkGuards evaluate registerOf i parameters) := by
  induction parameters generalizing i with
  | nil => exact composed_pure
  | cons parameter rest ih =>
    unfold checkGuards
    split <;> infer_instance

instance composed_checkCondition : Composed P (checkCondition evaluate pattern) := by
  unfold checkCondition
  split <;> infer_instance

instance composed_bindArguments : Composed P (bindArguments evaluate pattern args) := by
  unfold bindArguments
  infer_instance

instance composed_tryPatterns {name : String} {patterns : List Pattern} :
    Composed P (tryPatterns evaluate h name args patterns) := by
  induction patterns with
  | nil => exact composed_complain
  | cons pattern rest ih => exact .option inferInstance (fun _ => composed_pure) ih

instance composed_callJourney : Composed P (callJourney evaluate h args) :=
  .bind inferInstance fun _ => .get (fun _ _ => rfl) fun _ => inferInstance

omit runs in
instance composed_checkFields {name : String} {fields : List Matter} {values : List Value} :
    Composed P (checkFields name fields values) := by
  induction fields generalizing values with
  | nil =>
    unfold checkFields
    exact composed_pure
  | cons field fields ih =>
    cases values with
    | nil => exact composed_pure
    | cons v values =>
      unfold checkFields
      split <;> infer_instance

instance composed_imitate : Composed P (imitate evaluate h args) := by
  refine .bind inferInstance fun f => ?_
  split <;> infer_instance

instance composed_callOption {callee : Value} : Composed P (call? evaluate callee args) := by
  refine .pinned ?_
  split
  case h_3 =>
    refine .bind inferInstance fun o => ?_
    cases o <;> infer_instance
  all_goals infer_instance

instance composed_callValue {callee : Value} : Composed P (callValue evaluate callee args) :=
  .option inferInstance (fun _ => composed_pure) composed_bind

end Binding

section Services

instance composed_print {content : String} {newline : Bool} :
    Composed P (print content newline) := by
  refine .bind inferInstance fun answer => ?_
  split <;> infer_instance

instance composed_prompt : Composed P prompt := by
  refine .bind inferInstance fun answer => ?_
  split <;> infer_instance

instance composed_system {command : String} : Composed P (system command) := by
  refine .bind inferInstance fun answer => ?_
  split <;> infer_instance

instance composed_babel {program input : Value} {args : List Value} :
    Composed P (babel program input args) := by
  have parts : Composed P (args.mapM toText) := .mapM args fun _ => composed_toText
  refine .bind inferInstance fun name => .bind inferInstance fun args => ?_
  refine .bind inferInstance fun input => .bind inferInstance fun answer => ?_
  split <;> infer_instance

instance composed_exit {code : Int64} : Composed P (exit code : Run α) :=
  .bind (.modify (fun _ _ => rfl) fun _ => ⟨rfl, rfl, rfl, rfl⟩) fun _ => composed_fail

instance composed_serve {service : Interrupt} : Composed P (serve service) := by
  cases service
  case random => exact .random
  all_goals
    unfold serve
    infer_instance

instance composed_interrupt : Composed P interrupt := by
  refine .bind inferInstance fun _ => .bind inferInstance fun w => ?_
  split <;> infer_instance

end Services

section Steps

instance composed_unary {f : Value → Run Value} [each : ∀ v, Composed P (f v)] :
    Composed P (unary f) := composed_bind

instance composed_binary {f : Value → Value → Run Value} [each : ∀ a b, Composed P (f a b)] :
    Composed P (binary f) := composed_bind

instance composed_comparison {test : Int64 → Bool} : Composed P (comparison test) :=
  composed_binary

instance composed_branch {sense : Bool} : Composed P (branch sense) := by
  unfold branch
  infer_instance

instance composed_callInstruction {hasKeywords : Bool} :
    Composed P (callInstruction hasKeywords) := by
  have called : ∀ callee args, Composed P (do
      let env ← read
      store (← env.call callee args)
      return .next : Run Flow) := by
    intro callee args
    -- What is called stands in the environment: to read that and to call is one primitive.
    change Composed P ((fun env => env.call callee args : Run Value) >>= fun v => do
      store v
      return .next : Run Flow)
    exact .bind .ask fun _ => composed_bind
  cases hasKeywords <;> unfold callInstruction <;> infer_instance

instance composed_installHandler : Composed P installHandler := by
  refine .bind inferInstance fun _ => .bind inferInstance fun _ => .get (fun _ _ => rfl) fun m => ?_
  split
  · exact .bind (.modify (fun _ _ => rfl) fun _ => ⟨rfl, rfl, rfl, rfl⟩) fun _ => composed_pure
  · infer_instance

instance composed_removeHandler : Composed P removeHandler := by
  refine .get (fun _ _ => rfl) fun m => ?_
  split
  · exact .bind (.modify (fun _ _ => rfl) fun _ => ⟨rfl, rfl, rfl, rfl⟩) fun _ => composed_pure
  · infer_instance

theorem composed_storeGuard {fieldCount : Form → Nat} {set : Form → Nat → Value → Form}
    (names : ∀ f i guard, (set f i guard).matter.map (·.name) = f.matter.map (·.name)) :
    Composed P (storeGuard fieldCount set) := by
  have edits : ∀ h guard i, Composed P (editForm h (set · i guard)) := fun _ guard i =>
    composed_editForm fun f => names f i guard
  unfold storeGuard
  infer_instance

theorem composed_execute {opcode : Opcode}
    (assigns : opcode = .istore → ∀ v name new, Composed P (setAttribute v name new)) :
    Composed P (execute opcode) := by
  unfold execute
  cases opcode
  case istore =>
    have assigns := assigns rfl
    infer_instance
  case gload =>
    refine .bind inferInstance fun _ => .get (fun _ _ => rfl) fun m => ?_
    split <;> infer_instance
  case gstore =>
    have assigns : ∀ i v, Composed P (modify fun m =>
        { m with program := m.program.setGlobal i v }) := fun _ _ =>
      .modify (fun _ _ => rfl) fun _ => ⟨rfl, rfl, rfl, rfl⟩
    refine .bind inferInstance fun v => .bind inferInstance fun i => ?_
    exact .get (fun _ _ => rfl) fun m => inferInstance
  case iload =>
    refine .bind inferInstance fun _ => .bind inferInstance fun _ => ?_
    exact .option inferInstance (fun _ => composed_bind) composed_bind
  case feGenusStore => exact composed_storeGuard fun _ _ _ => rfl
  case fmGenusStore => exact composed_storeGuard fun _ _ _ => Form.alike_setMatterGuard.matter
  all_goals infer_instance

theorem composed_step (assigns : ∀ v name new, Composed P (setAttribute v name new)) :
    Composed P step := by
  refine .bind inferInstance fun standing => .ite inferInstance ?_
  refine .bind inferInstance fun w => ?_
  split
  · exact composed_fail
  · exact composed_execute fun _ => assigns

/-- What is written back is the machine that was read but for its handlers. -/
theorem resume_eq : resume = (do
    let m ← get
    match m.handlers.catchIn? (m.frameDepth - 1) with
    | none => throw .thrown
    | some (handler, handlers) =>
      modify fun m => { m with handlers := handlers.takeException.2 }
      setRegister handler.register handlers.exception
      jump handler.resume : Run Unit) := by
  funext env m
  refine Eq.trans ?_ (bind_ok (a := m) rfl).symm
  cases caught : m.handlers.catchIn? (m.frameDepth - 1) with
  | none => exact resume_missed caught
  | some found => exact resume_handled caught

instance composed_resume : Composed P resume := by
  rw [resume_eq]
  refine .get (fun _ _ => rfl) fun m => ?_
  split
  · infer_instance
  · exact .bind (.modify (fun _ _ => rfl) fun _ => ⟨rfl, rfl, rfl, rfl⟩) fun _ => composed_bind

end Steps

section Runs

instance composed_settle [body : Composed P c] : Composed P (settle c) := by
  have explains : Composed P (fun _ m => .error
      (.fatal (.uncaught (m.heap.display m.handlers.exception)))
      { m with handlers := m.handlers.takeException.2 } : Run α) :=
    .aside (fun _ _ _ => rfl) fun _ _ => ⟨rfl, rfl, rfl, rfl⟩
  have same : settle c = rescue c _ := funext fun env => funext fun m => settle_eq c
  rw [same]
  exact body.rescued explains

instance composed_textBook {texts : List String} : Composed P (textBook texts) := composed_bind

theorem setGlobal_eq (i : Nat) (v : Value) :
    (do set (← ofExcept ((← get).setGlobal i v)) : Run PUnit) = (do
      if i < (← get).program.globals.size then
        modify fun m => { m with program := m.program.setGlobal i v }
      else fail (.malformed (.globalRange i)) : Run PUnit) := by
  funext env m
  refine (bind_ok (a := m) rfl).trans (Eq.trans ?_ (bind_ok (a := m) rfl).symm)
  unfold Machine.setGlobal
  split <;> rfl

instance composed_runMain {argv : List String} [∀ start, Composed P (evaluate start)] :
    Composed P (runMain argv) := by
  refine .get (fun _ _ => rfl) fun m => ?_
  dsimp only
  split
  · infer_instance
  · rename_i main _
    split
    · infer_instance
    · rename_i i _
      refine .bind inferInstance fun v => ?_
      have installs : Composed P (do set (← ofExcept ((← get).setGlobal i v)) : Run PUnit) := by
        rw [setGlobal_eq]
        refine .get (fun _ _ => rfl) fun m => .ite (.modify (fun _ _ => rfl) fun _ => ?_)
          inferInstance
        exact ⟨rfl, rfl, rfl, rfl⟩
      have runs : Composed P ((do set (← ofExcept ((← get).setGlobal i v)) : Run PUnit) >>=
        fun _ => settle (callValue evaluate (.journey main) {})) := inferInstance
      simpa only [bind_assoc] using runs

instance composed_errand {errand : Errand} [∀ start, Composed P (evaluate start)] :
    Composed P errand.body := by
  cases errand with
  | invoke callee args => exact composed_settle
  | main argv => exact composed_runMain

end Runs

end JourneyMachine.Run
