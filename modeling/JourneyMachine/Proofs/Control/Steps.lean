import JourneyMachine.Proofs.Closure.Loops
import JourneyMachine.Proofs.Control.Calls

namespace JourneyMachine

open Machine (Moves)

/-- The machine when a handler has taken the exception, with the older handlers left. -/
def Machine.caught (m : Machine) (older : List Handler) : Machine :=
  { m with handlers := { m.handlers with records := older, exception := .ni } }

namespace Run

variable {own : Nat} {env : Env} {m : Machine}

section Operands

theorem orderly_nextWord : Orderly 1 env nextWord m := by
  refine orderly_onFrame fun frame w changed same => ?_
  cases read : frame.pattern.block.word frame.ip with
  | ok word =>
    rw [read] at same
    cases same
    rfl
  | error fault =>
    rw [read] at same
    cases same

theorem orderly_nextIndex : Orderly 1 env nextIndex m :=
  (orderly_nextWord).bind fun _ _ => .pure

theorem orderly_nextValue : Orderly 1 env nextValue m :=
  (orderly_nextIndex).bind fun _ _ => orderly_register _

theorem orderly_store (v : Value) : Orderly 1 env (store v) m :=
  (orderly_nextIndex).bind fun _ _ => orderly_setRegister ..

theorem orderly_nextConstant : Orderly 1 env nextConstant m :=
  (orderly_nextWord).bind fun _ _ => orderly_readFrame _

theorem orderly_nextValues (count : Nat) : Orderly 1 env (nextValues count) m := by
  induction count generalizing m with
  | zero => exact .pure
  | succ count ih => exact (orderly_nextValue).bind fun _ _ => ih.bind fun _ _ => .pure

theorem orderly_nextPairs (count : Nat) : Orderly 1 env (nextPairs count) m := by
  induction count generalizing m with
  | zero => exact .pure
  | succ count ih =>
    exact (orderly_nextValue).bind fun _ _ => (orderly_nextValue).bind fun _ _ =>
      ih.bind fun _ _ => .pure

theorem orderly_countedValues : Orderly 1 env countedValues m :=
  (orderly_nextIndex).bind fun _ _ => orderly_nextValues _

theorem orderly_nextName : Orderly 1 env nextName m :=
  (orderly_nextConstant).bind fun _ _ => (Orderly.ofExcept).bind fun _ _ => .onHeap

theorem orderly_nextKeywords (count : Nat) : Orderly 1 env (nextKeywords count) m := by
  induction count generalizing m with
  | zero => exact .pure
  | succ count ih =>
    refine (orderly_nextConstant).bind fun _ _ => (orderly_nextValue).bind fun _ _ => ?_
    exact (Orderly.ofExcept).bind fun _ _ => (Orderly.onHeap).bind fun _ _ => ih.bind fun _ _ => .pure

/-- A service or an instruction on the next register. -/
theorem orderly_operand {α : Type} {f : Value → Run α} (each : ∀ v m', Orderly 1 env (f v) m') :
    Orderly 1 env (nextValue >>= f) m :=
  (orderly_nextValue).bind each

end Operands

section Services

theorem orderly_print (content : String) (newline : Bool) :
    Orderly own env (print content newline) m := by
  refine (Orderly.exchange _).bind fun answer _ => ?_
  split
  · exact .pure
  · exact orderly_report ..

/-- An exit is explained by the fault it ends in. -/
theorem orderly_exit {α : Type} (code : Int64) : Orderly own env (exit code : Run α) m := by
  refine ⟨⟨rfl, rfl, rfl, rfl, rfl, .refl⟩, id, trivial, ?_⟩
  intro _ n asked
  cases asked
  rfl

theorem orderly_prompt : Orderly own env prompt m := by
  refine (Orderly.exchange _).bind fun answer _ => ?_
  split
  · exact orderly_newText _
  · exact orderly_report ..

theorem orderly_system (command : String) : Orderly own env (system command) m := by
  refine (Orderly.exchange _).bind fun answer _ => ?_
  split
  · exact orderly_newText _
  · exact orderly_report ..

variable (calls : env.Orderly)
include calls

theorem orderly_babel (program input : Value) (args : List Value) :
    Orderly own env (babel program input args) m := by
  refine (orderly_toText calls program).bind fun _ _ => ?_
  refine (Orderly.mapM fun arg _ => orderly_toText calls arg).bind fun _ _ => ?_
  refine (orderly_toText calls input).bind fun _ _ => (Orderly.exchange _).bind fun answer _ => ?_
  split
  · exact orderly_newText _
  · exact orderly_report ..

theorem orderly_serve (service : Interrupt) : Orderly 1 env (serve service) m := by
  cases service
  case toNumeral =>
    exact orderly_operand fun v _ => (orderly_toNumeral calls v).bind fun _ _ => .pure
  case toText => exact orderly_operand fun v _ => orderly_toTextValue calls v
  case toVeracity =>
    exact orderly_operand fun v _ => (orderly_toVeracity calls v).bind fun _ _ => .pure
  case toBook => exact orderly_operand fun v _ => orderly_toBook calls v
  case toCodex => exact orderly_operand fun v _ => orderly_toCodex calls v
  case kindof => exact orderly_operand fun v _ => orderly_genusOf v
  case length => exact orderly_operand fun v _ => (orderly_length calls v).bind fun _ _ => .pure
  case arabic | roman =>
    exact orderly_operand fun v _ => (orderly_toNumeral calls v).bind fun _ _ => orderly_newText _
  case ascii => exact orderly_operand fun v _ => orderly_ascii v
  case print | println =>
    exact orderly_operand fun v _ => (orderly_toText calls v).bind fun _ _ =>
      (orderly_print ..).bind fun _ _ => .pure
  case dump =>
    exact orderly_operand fun v _ => (Orderly.onHeap).bind fun _ _ =>
      (orderly_print ..).bind fun _ _ => .pure
  case prompt => exact orderly_prompt
  case system =>
    exact orderly_operand fun v _ => (orderly_toText calls v).bind fun _ _ => orderly_system _
  case exit =>
    exact orderly_operand fun v _ => (orderly_toNumeral calls v).bind fun n _ => orderly_exit n
  case random => exact .still rfl rfl
  case codexNew =>
    exact (orderly_nextIndex).bind fun _ _ => (orderly_nextPairs _).bind fun _ _ =>
      orderly_newCodex calls _
  case bookNew => exact (orderly_countedValues).bind fun _ _ => orderly_newBook _
  case substr =>
    exact orderly_operand fun _ _ => orderly_operand fun _ _ => orderly_operand fun _ _ =>
      orderly_substr calls ..
  case arrayInsert =>
    exact orderly_operand fun _ _ => orderly_operand fun _ _ => orderly_operand fun _ _ =>
      (orderly_insertPage calls ..).bind fun _ _ => .pure
  case arrayDelete =>
    exact orderly_operand fun _ _ => orderly_operand fun _ _ => orderly_delete calls ..
  case babel =>
    exact orderly_operand fun _ _ => orderly_operand fun _ _ =>
      (orderly_countedValues).bind fun _ _ => orderly_babel calls ..
  case fopen =>
    exact orderly_operand fun filename _ => orderly_operand fun mode _ =>
      (orderly_toText calls filename).bind fun _ _ => (orderly_toText calls mode).bind fun _ _ =>
        orderly_openScroll ..

theorem orderly_interrupt : Orderly 1 env interrupt m := by
  refine (orderly_readFrame (pure ·.ip)).bind fun _ _ => (orderly_nextWord).bind fun w _ => ?_
  split
  · exact .fail ‹_›
  · exact (orderly_serve calls _).bind fun _ _ => orderly_store _

end Services

section Instructions

theorem orderly_unary {f : Value → Run Value} (each : ∀ v m', Orderly 1 env (f v) m') :
    Orderly 1 env (unary f) m :=
  orderly_operand fun v _ => (each v _).bind fun _ _ => (orderly_store _).bind fun _ _ => .pure

theorem orderly_binary {f : Value → Value → Run Value}
    (each : ∀ a b m', Orderly 1 env (f a b) m') : Orderly 1 env (binary f) m :=
  orderly_operand fun a _ => orderly_operand fun b _ => (each a b _).bind fun _ _ =>
    (orderly_store _).bind fun _ _ => .pure

/-- A handler is installed for the frame on top, as long as there is room. -/
theorem orderly_push (resume register : Nat) (frames : m.frames ≠ []) :
    Orderly 1 env (do
      let m ← get
      match m.handlers.push? { frame := m.frameDepth - 1, resume, register } with
      | some handlers =>
        modify fun m => { m with handlers }
        return Flow.next
      | none => complain .tooManyHandlers) m := by
  refine .get ?_
  cases pushed : m.handlers.push? { frame := m.frameDepth - 1, resume, register } with
  | none => exact orderly_complain _
  | some handlers =>
    have deep : 0 < m.frames.length := List.length_pos_iff.mpr frames
    unfold HandlerStack.push? at pushed
    split at pushed
    · contradiction
    · rename_i room
      cases pushed
      refine ⟨⟨rfl, rfl, rfl, rfl, rfl, .install .refl Nat.one_pos ?_ ?_⟩, id, id⟩
      · simp only [Machine.frameDepth]
        omega
      · simpa only [HandlerStack.depth, Nat.not_le] using room

theorem orderly_installHandler : Orderly 1 env installHandler m := by
  refine (orderly_nextIndex).seq fun resume m₁ first moves => ?_
  have frames : m₁.frames ≠ [] := by
    intro none
    have empty : m.frames = [] := by
      rw [← List.length_eq_zero_iff, ← moves.length, none, List.length_nil]
    have stopped : nextIndex env m = .error (.fatal (.malformed .noFrame)) m := by
      refine bind_error ?_
      simp only [nextWord, onFrame, empty]
    rw [stopped] at first
    cases first
  refine (orderly_nextIndex).seq fun register m₂ _ moves => ?_
  refine orderly_push resume register fun none => frames ?_
  rw [← List.length_eq_zero_iff, ← moves.length, none, List.length_nil]

theorem orderly_removeHandler : Orderly own env removeHandler m := by
  refine .get ?_
  cases popped : m.handlers.pop? with
  | none => exact .fail trivial
  | some found =>
    unfold HandlerStack.pop? at popped
    split at popped
    · contradiction
    · rename_i newest older records
      cases popped
      refine ⟨⟨rfl, rfl, rfl, rfl, rfl, .of_suffix ?_⟩, id, id⟩
      rw [records]
      exact List.suffix_cons newest older

theorem orderly_storeGuard (fieldCount : Form → Nat) (set : Form → Nat → Value → Form) :
    Orderly 1 env (storeGuard fieldCount set) m := by
  refine orderly_operand fun _ _ => orderly_operand fun _ _ => (orderly_nextIndex).bind fun _ _ => ?_
  refine (Orderly.ofExcept).bind fun _ _ => (Orderly.onHeap).bind fun _ _ => .ite ?_ (.fail trivial)
  exact (orderly_editForm ..).bind fun _ _ => .pure

variable (calls : env.Orderly)
include calls

theorem orderly_comparison (test : Int64 → Bool) : Orderly 1 env (comparison test) m :=
  orderly_binary fun _ _ _ => (orderly_cmp calls ..).bind fun _ _ => .pure

theorem orderly_branch (sense : Bool) : Orderly 1 env (branch sense) m := by
  refine orderly_operand fun condition _ => (orderly_nextIndex).bind fun target _ => ?_
  refine (orderly_toVeracity calls condition).bind fun truth _ => ?_
  exact .ite ((orderly_jump target).bind fun _ _ => .pure) .pure

theorem orderly_callInstruction (hasKeywords : Bool) :
    Orderly 1 env (callInstruction hasKeywords) m := by
  have stored : ∀ callee args {m'}, Orderly 1 env (do
      let env ← read
      store (← env.call callee args)
      return Flow.next) m' := by
    intro callee args m'
    have called : Orderly 1 env (fun _ => env.call callee args) m' := (calls callee args m').mono
    exact .read (called.bind fun _ _ => (orderly_store _).bind fun _ _ => .pure)
  refine orderly_operand fun callee _ => (orderly_countedValues).bind fun positional _ => ?_
  cases hasKeywords
  · exact stored ..
  · exact (orderly_nextIndex).bind fun _ _ => (orderly_nextKeywords _).bind fun _ _ => stored ..

theorem orderly_execute (opcode : Opcode) : Orderly 1 env (execute opcode) m := by
  cases opcode
  case noop => exact .pure
  case mov => exact orderly_unary fun _ _ => .pure
  case int => exact (orderly_interrupt calls).bind fun _ _ => .pure
  case jmp => exact (orderly_nextIndex).bind fun _ _ => (orderly_jump _).bind fun _ _ => .pure
  case jmpTrue | jmpFalse => exact orderly_branch calls _
  case call | callKw => exact orderly_callInstruction calls _
  case ret => exact orderly_operand fun _ _ => .pure
  case tryCatch => exact orderly_installHandler
  case throw => exact orderly_operand fun v _ => .raise v
  case popTryCatch => exact orderly_removeHandler
  case not => exact orderly_unary fun v _ => orderly_not calls v
  case neg => exact orderly_unary fun v _ => orderly_neg calls v
  case eql | neq =>
    exact orderly_binary fun _ _ _ => (orderly_eql calls ..).bind fun _ _ => .pure
  case lth | gth | leq | geq => exact orderly_comparison calls _
  case cmp => exact orderly_binary fun _ _ _ => (orderly_cmp calls ..).bind fun _ _ => .pure
  case add => exact orderly_binary fun _ _ _ => orderly_add calls ..
  case sub => exact orderly_binary fun _ _ _ => orderly_sub calls ..
  case mul => exact orderly_binary fun _ _ _ => orderly_mul calls ..
  case div => exact orderly_binary fun _ _ _ => orderly_div calls ..
  case mod => exact orderly_binary fun _ _ _ => orderly_rem calls ..
  case pow => exact orderly_binary fun _ _ _ => orderly_pow calls ..
  case index => exact orderly_binary fun _ _ _ => orderly_index calls ..
  case indexAssign =>
    exact orderly_operand fun _ _ => orderly_operand fun _ _ => orderly_operand fun _ _ =>
      (orderly_indexAssign calls ..).bind fun _ _ => .pure
  case fits => exact orderly_binary fun _ _ _ => (orderly_fits calls ..).bind fun _ _ => .pure
  case patAnd | patOr =>
    exact orderly_binary fun _ _ _ => (Orderly.allocate _).bind fun _ _ => .pure
  case patNot => exact orderly_unary fun _ _ => (Orderly.allocate _).bind fun _ _ => .pure
  case cload => exact (orderly_nextConstant).bind fun _ _ => (orderly_store _).bind fun _ _ => .pure
  case gload =>
    refine (orderly_nextIndex).bind fun _ _ => .get ?_
    split
    · exact (orderly_store _).bind fun _ _ => .pure
    · exact .fail trivial
  case gstore =>
    refine orderly_operand fun _ _ => (orderly_nextIndex).bind fun _ _ => .get (.ite ?_ (.fail trivial))
    exact (Orderly.modify rfl).bind fun _ _ => .pure
  case iload =>
    refine orderly_operand fun v _ => (orderly_nextName).bind fun name _ => ?_
    refine (orderly_attribute calls v name).bind fun found _ => ?_
    cases found with
    | some found => exact (orderly_store _).bind fun _ _ => .pure
    | none => exact orderly_complainOf v (.unknownAttribute name)
  case istore =>
    refine orderly_operand fun v _ => orderly_operand fun new _ => (orderly_nextName).bind
      fun name _ => ?_
    exact (orderly_setAttribute calls v name new).bind fun _ _ =>
      .ite .pure (orderly_complainOf v (.cannotAssign name))
  case feGenusStore | fmGenusStore => exact orderly_storeGuard ..

theorem orderly_step : Orderly 1 env step m := by
  refine (orderly_readFrame (fun f => pure (f.ip, f.atEnd))).bind fun place m₁ => ?_
  refine .ite .pure ((orderly_nextWord).bind fun w m₂ => ?_)
  split
  · exact .fail ‹_›
  · exact orderly_execute calls _

end Instructions

section Rounds

theorem orderly_fetch : Orderly own env fetch m := by
  unfold Orderly fetch
  split
  · exact .refl
  · exact ⟨.of_control rfl, id, id⟩

/-- A throw goes on if the newest handler is not one of the frame on top. -/
theorem resume_passes (other : ∀ newest older, m.handlers.records = newest :: older →
    newest.frame ≠ m.frameDepth - 1) : resume env m = .error .thrown m := by
  have missed : m.handlers.catchIn? (m.frameDepth - 1) = none := by
    unfold HandlerStack.catchIn?
    split
    · rfl
    · rename_i newest older records
      exact if_neg (other newest older records)
  exact resume_missed missed

/-- A throw takes the newest handler if it is one of the frame on top. -/
theorem resume_catches {newest : Handler} {older : List Handler}
    (records : m.handlers.records = newest :: older) (top : newest.frame = m.frameDepth - 1) :
    resume env m = (do setRegister newest.register m.handlers.exception; jump newest.resume) env
      (m.caught older) := by
  have caught : m.handlers.catchIn? (m.frameDepth - 1) =
      some (newest, { m.handlers with records := older }) := by
    unfold HandlerStack.catchIn?
    rw [records]
    exact if_pos top
  exact resume_handled caught

/-- A throw that is not passed on leaves no exception in flight. -/
theorem resume_ends : resume env m = .error .thrown m ∨
    ∃ m₁ rest, Moves 1 m m₁ ∧ m₁.Quiet ∧ (m.Going → m₁.Going) ∧ resume env m = rest env m₁ ∧
      Orderly 1 env rest m₁ := by
  by_cases own : ∃ newest older, m.handlers.records = newest :: older ∧
      newest.frame = m.frameDepth - 1
  · obtain ⟨newest, older, records, top⟩ := own
    have fewer : older <:+ m.handlers.records := by
      rw [records]
      exact List.suffix_cons newest older
    refine .inr ⟨m.caught older, _, ⟨rfl, rfl, rfl, rfl, rfl, .of_suffix fewer⟩, rfl,
      id, resume_catches records top, ?_⟩
    exact (orderly_setRegister ..).bind fun _ _ => orderly_jump _
  · refine .inl (resume_passes fun newest older records top => own ?_)
    exact ⟨newest, older, records, top⟩

theorem bind_eq {α β : Type} {c d : Run α} {k : α → Run β} {m' : Machine}
    (same : c env m = d env m') : (c >>= k) env m = (d >>= k) env m' := by
  change EStateM.bind (c env) (fun a => k a env) m = EStateM.bind (d env) (fun a => k a env) m'
  simp only [EStateM.bind, same]

variable (calls : env.Orderly)
include calls

theorem orderly_round : Orderly 1 env round m := by
  refine (orderly_fetch).bind fun _ m₁ => ?_
  have stepped : Orderly 1 env step m₁ := orderly_step calls
  unfold Orderly at stepped ⊢
  rcases same : step env m₁ with _ | ⟨_ | _ | _, m₂⟩ <;> rw [same] at stepped
  · rw [rescue_other same fun _ equal => by cases equal]
    exact stepped
  · rw [rescue_thrown same]
    have resumed : resume env m₂ = .error .thrown m₂ ∨ _ := resume_ends
    rcases resumed with passed | ⟨m₃, rest, moves, quiet, going, taken, orderly⟩
    · rw [bind_error passed]
      exact stepped
    · rw [bind_eq taken]
      exact .following (stepped.1.trans moves) (fun _ => quiet)
        (fun first => going (stepped.2.2 first)) (orderly.bind fun _ _ => .pure)
  · rw [rescue_other same fun _ equal => by cases equal]
    exact stepped
  · rw [rescue_other same fun _ equal => by cases equal]
    exact stepped

theorem orderly_loop (rounds : Nat) : Orderly 1 env (loop rounds) m := by
  induction rounds generalizing m with
  | zero => exact .refl
  | succ rounds ih =>
    unfold Orderly
    rw [loop_succ]
    refine (orderly_round calls).bind fun flow m₁ => ?_
    cases flow with
    | next => exact ih
    | done v => exact .pure

theorem orderly_evaluate (start : Nat) : Orderly 1 env (evaluate start) m :=
  (orderly_jump start).bind fun _ _ => .get (orderly_loop calls _)

end Rounds

end Run

/-- Calls of every depth keep the control state. -/
theorem Machine.callAt_orderly (depth inside : Nat) :
    Env.Orderly { call := callAt depth, depth := inside } := by
  induction depth generalizing inside with
  | zero => exact fun _ _ _ => Run.Ends.fault trivial
  | succ depth ih =>
    intro callee args m
    have inner := ih depth
    exact Run.orderly_callValue inner (fun start _ => Run.orderly_evaluate inner start) callee args

end JourneyMachine
