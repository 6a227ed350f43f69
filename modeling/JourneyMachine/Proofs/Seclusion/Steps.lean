import JourneyMachine.Proofs.Control.Steps
import JourneyMachine.Proofs.Seclusion.Calls

namespace JourneyMachine

namespace Run

variable {s h : Handle} {env : Env}

section Operands

theorem spares_nextWord : Spares s env nextWord := by
  refine spares_onFrame fun frame w after avoids same => ?_
  cases read : frame.pattern.block.word frame.ip with
  | ok word =>
    rw [read] at same
    cases same
    exact ⟨avoids, trivial⟩
  | error fault =>
    rw [read] at same
    cases same

theorem spares_nextIndex : Spares s env nextIndex :=
  (spares_nextWord).bind fun _ _ => .pure trivial

theorem spares_nextValue : Spares s env nextValue (·.Avoids s) :=
  (spares_nextIndex).bind fun _ _ => spares_register _

theorem spares_store {v : Value} (avoids : v.Avoids s) : Spares s env (store v) :=
  (spares_nextIndex).bind fun _ _ => spares_setRegister _ avoids

theorem spares_nextConstant : Spares s env nextConstant (·.Avoids s) := by
  refine (spares_nextWord).bind fun i _ => spares_readFrame fun frame v avoids same => ?_
  unfold Codeblock.constant at same
  split at same
  · rename_i found
    cases same
    apply avoids
    exact List.mem_append_right _ (Array.mem_toList_iff.mpr (Array.mem_of_getElem? found))
  · cases same

theorem spares_nextValues (count : Nat) :
    Spares s env (nextValues count) fun values => ∀ v ∈ values, v.Avoids s := by
  induction count with
  | zero => exact .pure fun _ member => absurd member List.not_mem_nil
  | succ count ih =>
    exact (spares_nextValue).bind fun _ own => ih.bind fun _ rest =>
      .pure (List.forall_mem_cons.mpr ⟨own, rest⟩)

theorem spares_nextPairs (count : Nat) :
    Spares s env (nextPairs count) fun pairs => ∀ e ∈ pairs, e.1.Avoids s ∧ e.2.Avoids s := by
  induction count with
  | zero => exact .pure fun _ member => absurd member List.not_mem_nil
  | succ count ih =>
    exact (spares_nextValue).bind fun _ key => (spares_nextValue).bind fun _ value =>
      ih.bind fun _ rest => .pure (List.forall_mem_cons.mpr ⟨⟨key, value⟩, rest⟩)

theorem spares_countedValues :
    Spares s env countedValues fun values => ∀ v ∈ values, v.Avoids s :=
  (spares_nextIndex).bind fun _ _ => spares_nextValues _

theorem spares_nextName : Spares s env nextName :=
  (spares_nextConstant).bind fun _ own => (spares_expected own _).bind fun _ _ => spares_text _

theorem spares_nextKeywords (count : Nat) :
    Spares s env (nextKeywords count) fun keywords => ∀ k ∈ keywords, k.2.Avoids s := by
  induction count with
  | zero => exact .pure fun _ member => absurd member List.not_mem_nil
  | succ count ih =>
    refine (spares_nextConstant).bind fun _ name => (spares_nextValue).bind fun _ own => ?_
    refine (spares_expected name _).bind fun _ _ => (spares_text _).bind fun _ _ => ?_
    exact ih.bind fun _ rest => .pure (List.forall_mem_cons.mpr ⟨own, rest⟩)

/-- A service or an instruction on the next register. -/
theorem spares_operand {α : Type} {P : α → Prop} {f : Value → Run α}
    (each : ∀ v, v.Avoids s → Spares s env (f v) P) : Spares s env (nextValue >>= f) P :=
  (spares_nextValue).bind each

end Operands

section Services

theorem spares_print (content : String) (newline : Bool) :
    Spares s env (print content newline) := by
  refine (Spares.exchange _).bind fun answer _ => ?_
  split
  · exact .pure trivial
  · exact spares_report _ _

theorem spares_prompt : Spares s env prompt (·.Avoids s) := by
  refine (Spares.exchange _).bind fun answer _ => ?_
  split
  · exact spares_newText _
  · exact spares_report _ _

theorem spares_system (command : String) : Spares s env (system command) (·.Avoids s) := by
  refine (Spares.exchange _).bind fun answer _ => ?_
  split
  · exact spares_newText _
  · exact spares_report _ _

variable (calls : env.Spares s)
include calls

theorem spares_babel {program input : Value} {args : List Value} (name : program.Avoids s)
    (given : input.Avoids s) (avoid : ∀ v ∈ args, v.Avoids s) :
    Spares s env (babel program input args) (·.Avoids s) := by
  refine (spares_toText calls name).bind fun _ _ => ?_
  refine (Spares.mapM fun arg member => spares_toText calls (avoid arg member)).bind fun _ _ => ?_
  refine (spares_toText calls given).bind fun _ _ => (Spares.exchange _).bind fun answer _ => ?_
  split
  · exact spares_newText _
  · exact spares_report _ _

theorem spares_serve (service : Interrupt) : Spares s env (serve service) (·.Avoids s) := by
  cases service
  case toNumeral => exact spares_operand fun _ own => spares_numeral calls own id
  case toText => exact spares_operand fun _ own => spares_toTextValue calls own
  case toVeracity =>
    exact spares_operand fun _ own => (spares_toVeracity calls own).bind fun _ _ =>
      .pure (Value.avoids_veracity _)
  case toBook => exact spares_operand fun _ own => spares_toBook calls own
  case toCodex => exact spares_operand fun _ own => spares_toCodex calls own
  case kindof => exact spares_operand fun v _ => spares_genusOf v
  case length =>
    exact spares_operand fun _ own => (spares_length calls own).bind fun _ _ =>
      .pure (Value.avoids_numeral _)
  case arabic | roman =>
    exact spares_operand fun _ own => (spares_toNumeral calls own).bind fun _ _ => spares_newText _
  case ascii => exact spares_operand fun v _ => spares_ascii v
  case print | println =>
    exact spares_operand fun _ own => (spares_toText calls own).bind fun _ _ =>
      (spares_print _ _).bind fun _ _ => .pure Value.avoids_ni
  case dump =>
    refine spares_operand fun _ own => ?_
    exact Spares.bind (P := fun _ => True) (.onHeap fun _ _ _ _ => trivial) fun _ _ =>
      (spares_print _ _).bind fun _ _ => .pure own
  case prompt => exact spares_prompt
  case system =>
    exact spares_operand fun _ own => (spares_toText calls own).bind fun _ _ => spares_system _
  case exit =>
    exact spares_operand fun _ own => (spares_toNumeral calls own).bind fun _ _ =>
      fun _ _ _ => trivial
  case random =>
    exact fun _ _ secluded => ⟨{ secluded with }, rfl, Value.avoids_numeral _⟩
  case codexNew =>
    exact (spares_nextIndex).bind fun _ _ => (spares_nextPairs _).bind fun _ own =>
      spares_newCodex calls own
  case bookNew =>
    exact (spares_countedValues).bind fun _ own => spares_newBook (by simpa using own)
  case substr =>
    exact spares_operand fun _ whole => spares_operand fun _ first => spares_operand
      fun _ amount => spares_substr calls whole first amount
  case arrayInsert =>
    exact spares_operand fun _ inside => spares_operand fun _ at_ => spares_operand
      fun _ stored => (spares_insertPage calls inside at_ stored).bind fun _ _ => .pure stored
  case arrayDelete =>
    exact spares_operand fun _ inside => spares_operand fun _ at_ => spares_delete calls inside at_
  case babel =>
    exact spares_operand fun _ name => spares_operand fun _ given =>
      (spares_countedValues).bind fun _ own => spares_babel calls name given own
  case fopen =>
    exact spares_operand fun _ name => spares_operand fun _ mode =>
      (spares_toText calls name).bind fun _ _ => (spares_toText calls mode).bind fun _ _ =>
        spares_openScroll _ _

theorem spares_interrupt : Spares s env interrupt := by
  have place : Spares s env (onFrame fun f => return (f.ip, f)) :=
    spares_readFrame (g := fun f => .ok f.ip) fun _ _ _ _ => trivial
  refine place.bind fun _ _ => (spares_nextWord).bind fun w _ => ?_
  split
  · exact .fail
  · exact (spares_serve calls _).bind fun _ own => spares_store own

end Services

section Instructions

def Flow.Avoids (s : Handle) (flow : Flow) : Prop := ∀ v, flow = .done v → v.Avoids s

theorem spares_next : Spares s env (return Flow.next) (Flow.Avoids s) :=
  .pure fun _ same => by cases same

/-- A result is stored, and the loop goes on. -/
theorem spares_stored {c : Run Value} (spares : Spares s env c (·.Avoids s)) :
    Spares s env (do
      store (← c)
      return Flow.next) (Flow.Avoids s) :=
  spares.bind fun _ own => (spares_store own).bind fun _ _ => spares_next

theorem spares_unary {f : Value → Run Value}
    (each : ∀ v, v.Avoids s → Spares s env (f v) (·.Avoids s)) :
    Spares s env (unary f) (Flow.Avoids s) :=
  spares_operand fun v own => spares_stored (each v own)

theorem spares_binary {f : Value → Value → Run Value}
    (each : ∀ a b, a.Avoids s → b.Avoids s → Spares s env (f a b) (·.Avoids s)) :
    Spares s env (binary f) (Flow.Avoids s) :=
  spares_operand fun a one => spares_operand fun b two => spares_stored (each a b one two)

theorem spares_handlers {handlers : HandlerStack} (avoids : handlers.exception.Avoids s) :
    Spares s env (do
      modify fun m => { m with handlers }
      return Flow.next) (Flow.Avoids s) :=
  Spares.bind (P := fun _ => True)
    (.modify fun _ _ secluded => ⟨{ secluded with exception := avoids }, rfl⟩)
    fun _ _ => spares_next

theorem spares_installHandler : Spares s env installHandler (Flow.Avoids s) := by
  refine (spares_nextIndex).bind fun _ _ => (spares_nextIndex).bind fun _ _ =>
    .get fun o m secluded => ?_
  split
  · rename_i handlers pushed
    refine spares_handlers ?_
    unfold HandlerStack.push? at pushed
    split at pushed <;> cases pushed
    exact secluded.exception
  · exact spares_complain _

theorem spares_removeHandler : Spares s env removeHandler (Flow.Avoids s) := by
  refine .get fun o m secluded => ?_
  split
  · rename_i record handlers popped
    refine spares_handlers ?_
    unfold HandlerStack.pop? at popped
    split at popped <;> cases popped
    exact secluded.exception
  · exact .fail

theorem spares_storeGuard {fieldCount : Form → Nat} {set : Form → Nat → Value → Form}
    (links : ∀ f i guard, ∀ v ∈ (set f i guard).links, v ∈ f.links ∨ v = guard) :
    Spares s env (storeGuard fieldCount set) (Flow.Avoids s) := by
  refine spares_operand fun target own => spares_operand fun guard tested => ?_
  refine (spares_nextIndex).bind fun i _ => (spares_expected own _).bind fun h other => ?_
  refine (spares_form h).bind fun f _ => .ite ?_ .fail
  refine (spares_editForm other fun form avoids v member => ?_).bind fun _ _ => spares_next
  rcases links form i guard v member with before | rfl
  · exact avoids v before
  · exact tested

variable (calls : env.Spares s)
include calls

theorem spares_comparison (test : Int64 → Bool) :
    Spares s env (comparison test) (Flow.Avoids s) :=
  spares_binary fun _ _ left right => (spares_cmp calls left right).bind fun _ _ =>
    .pure (Value.avoids_veracity _)

theorem spares_branch (sense : Bool) : Spares s env (branch sense) (Flow.Avoids s) := by
  refine spares_operand fun _ own => (spares_nextIndex).bind fun target _ => ?_
  refine (spares_toVeracity calls own).bind fun _ _ => ?_
  exact .ite ((spares_jump target).bind fun _ _ => spares_next) spares_next

theorem spares_callInstruction (hasKeywords : Bool) :
    Spares s env (callInstruction hasKeywords) (Flow.Avoids s) := by
  refine spares_operand fun callee own => (spares_countedValues).bind fun positional given => ?_
  have stored : ∀ keywords : List (String × Value), (∀ k ∈ keywords, k.2.Avoids s) →
      Spares s env (do
        let env ← read
        store (← env.call callee { positional, keywords })
        return Flow.next) (Flow.Avoids s) := by
    intro keywords named
    refine .read (spares_stored (calls callee { positional, keywords } own fun v member => ?_))
    rcases List.mem_append.mp member with one | other
    · exact given v one
    · obtain ⟨k, there, rfl⟩ := List.mem_map.mp other
      exact named k there
  cases hasKeywords
  · exact stored [] fun _ member => absurd member List.not_mem_nil
  · exact (spares_nextIndex).bind fun _ _ => (spares_nextKeywords _).bind stored

theorem spares_equality (test : Bool → Bool) :
    Spares s env (binary fun a b => return .veracity (test (← eql a b))) (Flow.Avoids s) :=
  spares_binary fun _ _ left right => (spares_eql calls left right).bind fun _ _ =>
    .pure (Value.avoids_veracity _)

omit calls in
theorem spares_helper {other : Other} (avoids : ∀ v ∈ other.values, v.Avoids s) :
    Spares s env (do return Value.other (← allocate (.other other))) (·.Avoids s) := by
  have object : (Object.other other).Avoids s := avoids
  exact (Spares.allocate object).bind fun _ fresh => .pure ((Value.avoids_other).mpr fresh)

theorem spares_execute (opcode : Opcode) : Spares s env (execute opcode) (Flow.Avoids s) := by
  cases opcode
  case noop => exact spares_next
  case mov => exact spares_unary fun _ own => .pure own
  case int => exact (spares_interrupt calls).bind fun _ _ => spares_next
  case jmp =>
    exact (spares_nextIndex).bind fun _ _ => (spares_jump _).bind fun _ _ => spares_next
  case jmpTrue | jmpFalse => exact spares_branch calls _
  case call | callKw => exact spares_callInstruction calls _
  case ret =>
    refine spares_operand fun v own => .pure fun w same => ?_
    cases same
    exact own
  case tryCatch => exact spares_installHandler
  case throw => exact spares_operand fun _ own => .raise own
  case popTryCatch => exact spares_removeHandler
  case not => exact spares_unary fun _ own => spares_not calls own
  case neg => exact spares_unary fun _ own => spares_neg calls own
  case eql => exact spares_equality calls id
  case neq => exact spares_equality calls Bool.not
  case lth | gth | leq | geq => exact spares_comparison calls _
  case cmp =>
    exact spares_binary fun _ _ left right => (spares_cmp calls left right).bind fun _ _ =>
      .pure (Value.avoids_numeral _)
  case add => exact spares_binary fun _ _ => spares_add calls
  case sub => exact spares_binary fun _ _ => spares_sub calls
  case mul => exact spares_binary fun _ _ => spares_mul calls
  case div => exact spares_binary fun _ _ => spares_div calls
  case mod => exact spares_binary fun _ _ => spares_rem calls
  case pow => exact spares_binary fun _ _ => spares_pow calls
  case index => exact spares_binary fun _ _ => spares_index calls
  case indexAssign =>
    exact spares_operand fun _ inside => spares_operand fun _ at_ => spares_operand
      fun _ stored => (spares_indexAssign calls inside at_ stored).bind fun _ _ => spares_next
  case fits =>
    exact spares_binary fun _ _ tested given => (spares_fits calls tested given).bind fun _ _ =>
      .pure (Value.avoids_veracity _)
  case patAnd | patOr =>
    exact spares_binary fun _ _ left right => spares_helper (by simp [Other.values, left, right])
  case patNot => exact spares_unary fun _ own => spares_helper (by simpa [Other.values] using own)
  case cload => exact spares_stored spares_nextConstant
  case gload =>
    refine (spares_nextIndex).bind fun i _ => .get fun o m secluded => ?_
    split
    · rename_i v found
      obtain ⟨g, there, rfl⟩ := Option.map_eq_some_iff.mp found
      have own := secluded.globals g (Array.mem_of_getElem? there)
      exact (spares_store own).bind fun _ _ => spares_next
    · exact .fail
  case gstore =>
    refine spares_operand fun v own => (spares_nextIndex).bind fun i _ => .get fun _ _ _ =>
      .ite (Spares.bind (P := fun _ => True) (.modify fun o m secluded => ?_)
        fun _ _ => spares_next) .fail
    refine ⟨{ secluded with globals := fun g member => ?_ }, rfl⟩
    simp only [Program.setGlobal, ← Array.mem_toList_iff, Array.toList_modify] at member
    rcases mem_modify member with before | ⟨old, _, rfl⟩
    · exact secluded.globals g (Array.mem_toList_iff.mp before)
    · exact own
  case iload =>
    refine spares_operand fun v own => (spares_nextName).bind fun name _ => ?_
    refine (spares_attribute calls own name).bind fun found avoids => ?_
    cases found with
    | some w => exact (spares_store (avoids w rfl)).bind fun _ _ => spares_next
    | none => exact spares_complainOf v (.unknownAttribute name)
  case istore =>
    refine spares_operand fun v own => spares_operand fun new given => (spares_nextName).bind
      fun name _ => ?_
    exact (spares_setAttribute calls own given name).bind fun _ _ =>
      .ite spares_next (spares_complainOf v (.cannotAssign name))
  case feGenusStore =>
    exact spares_storeGuard fun _ _ _ _ => Form.links_setEssenceGuard
  case fmGenusStore => exact spares_storeGuard fun _ _ _ _ => Form.links_setMatterGuard

theorem spares_step : Spares s env step (Flow.Avoids s) := by
  have place : Spares s env (onFrame fun f => return ((f.ip, f.atEnd), f)) :=
    spares_readFrame (g := fun f => .ok (f.ip, f.atEnd)) fun _ _ _ _ => trivial
  refine place.bind fun _ _ => .ite (.pure fun v same => ?_) ((spares_nextWord).bind fun w _ => ?_)
  · cases same
    exact Value.avoids_ni
  · split
    · exact .fail
    · exact spares_execute calls _

end Instructions

section Rounds

theorem spares_fetch : Spares s env fetch := by
  intro o m secluded
  unfold fetch
  split
  · trivial
  · exact ⟨{ secluded with }, rfl, trivial⟩

/-- A throw goes on, or a handler takes it over. -/
theorem spares_resume : Spares s env resume := by
  intro o m secluded
  by_cases own : ∃ newest older, m.handlers.records = newest :: older ∧
      newest.frame = m.frameDepth - 1
  · obtain ⟨newest, older, records, top⟩ := own
    have caught : (m.caught older).Secluded s o :=
      { secluded with exception := Value.avoids_ni }
    have handled : Spares s env (do
        setRegister newest.register m.handlers.exception
        jump newest.resume) :=
      (spares_setRegister _ secluded.exception).bind fun _ _ => spares_jump _
    rw [resume_catches records top]
    exact handled o _ caught
  · have passes : resume env m = .error .thrown m :=
      resume_passes fun newest older records top => own ⟨newest, older, records, top⟩
    rw [passes]
    exact ⟨secluded, rfl⟩

theorem Spares.rescue {α : Type} {P : α → Prop} {c handler : Run α} (first : Spares s env c P)
    (handles : Spares s env handler P) : Spares s env (rescue c handler) P := by
  intro o m secluded
  have outcome := first o m secluded
  rcases same : c env m with ⟨a, m₁⟩ | ⟨_ | _ | _, m₁⟩ <;> rw [same] at outcome
  · rw [rescue_other same fun _ equal => by cases equal]
    exact outcome
  · rw [rescue_thrown same, ← outcome.2]
    exact handles o m₁ outcome.1
  · rw [rescue_other same fun _ equal => by cases equal]
    trivial
  · rw [rescue_other same fun _ equal => by cases equal]
    trivial

variable (calls : env.Spares s)
include calls

theorem spares_round : Spares s env round (Flow.Avoids s) :=
  (spares_fetch).bind fun _ _ =>
    (spares_step calls).rescue ((spares_resume).bind fun _ _ => spares_next)

theorem spares_loop (rounds : Nat) : Spares s env (loop rounds) (·.Avoids s) := by
  induction rounds with
  | zero => exact fun _ _ _ => trivial
  | succ rounds ih =>
    have goes : Spares s env (round >>= proceed (loop rounds)) (·.Avoids s) := by
      refine (spares_round calls).bind fun flow own => ?_
      cases flow with
      | next => exact ih
      | done v => exact .pure (own v rfl)
    intro o m secluded
    rw [loop_succ]
    exact goes o m secluded

theorem spares_evaluate (start : Nat) : Spares s env (evaluate start) (·.Avoids s) :=
  (spares_jump start).bind fun _ _ => .get fun _ _ _ => spares_loop calls _

end Rounds

end Run

/-- Calls of every depth spare a secluded slot. -/
theorem Machine.callAt_spares (s : Handle) (depth inside : Nat) :
    Env.Spares { call := callAt depth, depth := inside } s := by
  induction depth generalizing inside with
  | zero => exact fun _ _ _ _ _ _ _ => trivial
  | succ depth ih =>
    intro callee args avoids given
    exact Run.spares_callValue (ih depth) (Run.spares_evaluate (ih depth)) given avoids

end JourneyMachine
