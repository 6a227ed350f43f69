import JourneyMachine.Proofs.Code.Operands

/-! The decoder and the machine agree on the format of instructions. A step rejects the word it
stands on exactly if the decoder does, and a step that goes on leaves the frame behind the words that
the decoder takes for the instruction, however many operands it counts and whatever it calls, unless
it is a jump that is taken. -/

namespace JourneyMachine

def Instruction.width (i : Instruction) : Nat := i.next - i.ip

/-- A fault that calls the word at a position an unknown opcode, or the word behind an `INT` there an
unknown service. -/
inductive Codeblock.Blames (block : Codeblock) (ip : Nat) : Fault → Prop
  | opcode {w : Word} : block.word ip = .ok w → Blames block ip (.unknownOpcode w ip)
  | service {w s : Word} : block.word ip = .ok w → Opcode.ofWord? w = some .int →
      block.word (ip + 1) = .ok s → Blames block ip (.unknownInterrupt s (ip + 1))

/-- The truth for which a conditional jump is taken. -/
def Opcode.sense? : Opcode → Option Bool
  | .jmpTrue => some true
  | .jmpFalse => some false
  | _ => none

/-- An instruction of the frame on top jumps to a position. The truth of a condition is found out by
the machine that has taken the operands. -/
inductive Instruction.Jumps (env : Env) (m : Machine) (f : Frame) (below : List Frame)
    (i : Instruction) : Nat → Prop
  | always {target : Word} : i.operation = .opcode .jmp → i.operands = [.position target] →
      Jumps env m f below i target.toNat
  | conditional {opcode : Opcode} {sense : Bool} {r target : Word} {v : Value} {m' : Machine} :
      i.operation = .opcode opcode → opcode.sense? = some sense →
      i.operands = [.register r, .position target] → f.registers[r.toNat]? = some v →
      Run.toVeracity v env (m.movedTo f below i.next) = .ok sense m' →
      Jumps env m f below i target.toNat

/-- What is left of the frame on top when the step of an instruction goes on. -/
def Instruction.Advances (env : Env) (m : Machine) (f : Frame) (below : List Frame)
    (i : Instruction) (m' : Machine) : Prop :=
  ∃ changed, m'.frames = changed :: below ∧ changed.shape = f.shape ∧
    (∀ target, i.Jumps env m f below target → changed.ip = target) ∧
      ((∀ target, ¬ i.Jumps env m f below target) → changed.ip = f.ip + i.width)

namespace Run

variable {α β : Type} {env : Env} {m m' : Machine} {f : Frame} {below : List Frame}
  {kinds : List OperandKind}

section Services

/-- Operands that are taken inside are taken. -/
theorem Takes.regroup {γ : Type} {c : Run α} {k : α → Run β} {l : β → Run γ}
    (takes : Takes env kinds ((c >>= k) >>= l)) : Takes env kinds (c >>= fun a => k a >>= l) := by
  rwa [bind_assoc] at takes

variable (calls : env.Orderly)
include calls

/-- A service takes all its operands but the register of its result, which is stored to last. -/
theorem takes_serve (service : Interrupt) : Takes env service.layout.dropLast (serve service) := by
  cases service
  case toNumeral =>
    exact (takes_nextValue).after fun v _ => (orderly_toNumeral calls v).bind fun _ _ => .pure
  case toText => exact (takes_nextValue).after fun v _ => orderly_toTextValue calls v
  case toVeracity =>
    exact (takes_nextValue).after fun v _ => (orderly_toVeracity calls v).bind fun _ _ => .pure
  case toBook => exact (takes_nextValue).after fun v _ => orderly_toBook calls v
  case toCodex => exact (takes_nextValue).after fun v _ => orderly_toCodex calls v
  case kindof => exact (takes_nextValue).after fun v _ => orderly_genusOf v
  case length =>
    exact (takes_nextValue).after fun v _ => (orderly_length calls v).bind fun _ _ => .pure
  case arabic | roman =>
    exact (takes_nextValue).after fun v _ => (orderly_toNumeral calls v).bind fun _ _ =>
      orderly_newText _
  case ascii => exact (takes_nextValue).after fun v _ => orderly_ascii v
  case print | println =>
    exact (takes_nextValue).after fun v _ => (orderly_toText calls v).bind fun _ _ =>
      (orderly_print ..).bind fun _ _ => .pure
  case dump =>
    exact (takes_nextValue).after fun v _ => (Orderly.onHeap).bind fun _ _ =>
      (orderly_print ..).bind fun _ _ => .pure
  case prompt => exact .still fun _ => orderly_prompt
  case system =>
    exact (takes_nextValue).after fun v _ => (orderly_toText calls v).bind fun _ _ =>
      orderly_system _
  case exit => exact (Fruitless.bind fun _ => .bind fun _ => .bind fun _ => fruitless_fail).takes
  case random => exact .still fun _ => .still rfl rfl
  case codexNew => exact .regroup ((takes_countedPairs).after fun _ _ => orderly_newCodex calls _)
  case bookNew => exact (takes_countedValues).after fun _ _ => orderly_newBook _
  case substr =>
    exact (takes_nextValue).bind fun _ => (takes_nextValue).bind fun _ =>
      (takes_nextValue).after fun _ _ => orderly_substr calls ..
  case arrayInsert =>
    exact (takes_nextValue).bind fun _ => (takes_nextValue).bind fun _ =>
      (takes_nextValue).after fun _ _ => (orderly_insertPage calls ..).bind fun _ _ => .pure
  case arrayDelete =>
    exact (takes_nextValue).bind fun _ => (takes_nextValue).after fun _ _ => orderly_delete calls ..
  case babel =>
    exact (takes_nextValue).bind fun _ => (takes_nextValue).bind fun _ =>
      (takes_countedValues).after fun _ _ => orderly_babel calls ..
  case fopen =>
    exact (takes_nextValue).bind fun filename => (takes_nextValue).after fun mode _ =>
      (orderly_toText calls filename).bind fun _ _ => (orderly_toText calls mode).bind fun _ _ =>
        orderly_openScroll ..

theorem takes_served (service : Interrupt) :
    Takes env service.layout (do store (← serve service)) := by
  have whole : service.layout = service.layout.dropLast ++ [.register] := by
    cases service <;> rfl
  rw [whole]
  exact (takes_serve calls service).bind takes_store

end Services

section Instructions

theorem takes_unary {g : Value → Run Value} (each : ∀ v m, Orderly 0 env (g v) m) :
    Takes env [.register, .register] (unary g) :=
  (takes_nextValue).bind fun v => .before (each v) fun _ => (takes_store _).after fun _ _ => .pure

theorem takes_binary {g : Value → Value → Run Value} (each : ∀ a b m, Orderly 0 env (g a b) m) :
    Takes env [.register, .register, .register] (binary g) :=
  (takes_nextValue).bind fun a => (takes_nextValue).bind fun b => .before (each a b) fun _ =>
    (takes_store _).after fun _ _ => .pure

theorem takes_installHandler : Takes env [.position, .register] installHandler := by
  refine (takes_nextIndex .position).bind fun resume => ?_
  refine (takes_nextIndex .register).bind fun register => .before (fun _ => .still rfl rfl) ?_
  intro now
  split
  · exact .none fun m _ m' done => by cases done; rfl
  · exact (fruitless_complain).takes

theorem takes_storeGuard (fieldCount : Form → Nat) (set : Form → Nat → Value → Form) :
    Takes env [.register, .register, .field] (storeGuard fieldCount set) := by
  refine (takes_nextValue).bind fun target => (takes_nextValue).bind fun guard => ?_
  refine (takes_nextIndex .field).after fun i m => ?_
  refine (Orderly.ofExcept).bind fun _ _ => (Orderly.onHeap).bind fun _ _ => .ite ?_ (.fail trivial)
  exact (orderly_editForm ..).bind fun _ _ => .pure

variable (calls : env.Orderly)
include calls

theorem takes_callInstruction (hasKeywords : Bool) :
    Takes env (if hasKeywords then Opcode.callKw.layout else Opcode.call.layout)
      (callInstruction hasKeywords) := by
  have stored : ∀ callee args, Takes env [.register] (do
      let env ← read
      store (← env.call callee args)
      return Flow.next) := by
    intro callee args
    have called : ∀ m, Orderly 0 env (fun _ => env.call callee args) m := calls callee args
    exact .read (.before called fun _ => (takes_store _).after fun _ _ => .pure)
  cases hasKeywords
  · exact (takes_nextValue).bind fun _ => (takes_countedValues).bind fun _ => stored ..
  · exact (takes_nextValue).bind fun _ => (takes_countedValues).bind fun _ =>
      .regroup ((takes_countedKeywords).bind fun _ => stored ..)

/-- An instruction other than an interrupt or a jump takes the operands of its layout. -/
theorem takes_execute (opcode : Opcode) (plain : opcode ≠ .int) (straight : opcode ≠ .jmp)
    (unconditional : opcode.sense? = none) : Takes env opcode.layout (execute opcode) := by
  cases opcode
  case int => exact absurd rfl plain
  case jmp => exact absurd rfl straight
  case jmpTrue | jmpFalse => cases unconditional
  case noop => exact .still fun _ => .pure
  case mov => exact takes_unary fun _ _ => .pure
  case call => exact takes_callInstruction calls false
  case callKw => exact takes_callInstruction calls true
  case ret => exact (takes_nextValue).after fun _ _ => .pure
  case tryCatch => exact takes_installHandler
  case throw => exact (Fruitless.bind fun _ => fruitless_raise).takes
  case popTryCatch => exact .still fun _ => orderly_removeHandler
  case not => exact takes_unary fun v _ => orderly_not calls v
  case neg => exact takes_unary fun v _ => orderly_neg calls v
  case eql | neq => exact takes_binary fun _ _ _ => (orderly_eql calls ..).bind fun _ _ => .pure
  case lth | gth | leq | geq | cmp =>
    exact takes_binary fun _ _ _ => (orderly_cmp calls ..).bind fun _ _ => .pure
  case add => exact takes_binary fun _ _ _ => orderly_add calls ..
  case sub => exact takes_binary fun _ _ _ => orderly_sub calls ..
  case mul => exact takes_binary fun _ _ _ => orderly_mul calls ..
  case div => exact takes_binary fun _ _ _ => orderly_div calls ..
  case mod => exact takes_binary fun _ _ _ => orderly_rem calls ..
  case pow => exact takes_binary fun _ _ _ => orderly_pow calls ..
  case index => exact takes_binary fun _ _ _ => orderly_index calls ..
  case indexAssign =>
    exact (takes_nextValue).bind fun _ => (takes_nextValue).bind fun _ => (takes_nextValue).after
      fun _ _ => (orderly_indexAssign calls ..).bind fun _ _ => .pure
  case fits => exact takes_binary fun _ _ _ => (orderly_fits calls ..).bind fun _ _ => .pure
  case patAnd | patOr =>
    exact takes_binary fun _ _ _ => (Orderly.allocate _).bind fun _ _ => .pure
  case patNot => exact takes_unary fun _ _ => (Orderly.allocate _).bind fun _ _ => .pure
  case cload =>
    exact (takes_nextConstant).bind fun _ => (takes_store _).after fun _ _ => .pure
  case gload =>
    refine (takes_nextIndex .global).bind fun i => .before (fun _ => .still rfl rfl) fun now => ?_
    split
    · exact (takes_store _).after fun _ _ => .pure
    · exact (fruitless_fail).takes
  case gstore =>
    refine (takes_nextValue).bind fun v => (takes_nextIndex .global).after fun i m => .get ?_
    exact .ite ((Orderly.modify rfl).bind fun _ _ => .pure) (.fail trivial)
  case iload =>
    refine (takes_nextValue).bind fun v => (takes_nextName).bind fun name => ?_
    refine .before (fun _ => orderly_attribute calls v name) fun found => ?_
    cases found with
    | some found => exact (takes_store _).after fun _ _ => .pure
    | none => exact (Fruitless.bind fun _ => fruitless_complain).takes
  case istore =>
    refine (takes_nextValue).bind fun v => (takes_nextValue).bind fun new => ?_
    refine (takes_nextName).after fun name _ => ?_
    exact (orderly_setAttribute calls v name new).bind fun _ _ =>
      .ite .pure (orderly_complainOf v (.cannotAssign name))
  case feGenusStore | fmGenusStore => exact takes_storeGuard ..

end Instructions

end Run

namespace Codeblock

variable {block : Codeblock} {ip next : Nat} {w s : Word} {opcode : Opcode} {service : Interrupt}
  {operands : List Operand} {fault : Fault}

theorem instructionAt_opcode (word : block.word ip = .ok w)
    (known : Opcode.ofWord? w = some opcode) (plain : opcode ≠ .int)
    (read : block.operandsAt opcode.layout (ip + 1) = .ok (operands, next)) :
    block.instructionAt ip = .ok ⟨ip, .opcode opcode, operands, next⟩ := by
  have operation : block.operationAt ip = .ok (.opcode opcode, ip + 1) := by
    refine (bind_ok).mpr ⟨w, word, ?_⟩
    rw [known]
    cases opcode with
    | int => exact absurd rfl plain
    | _ => rfl
  exact (bind_ok).mpr ⟨_, operation, (bind_ok).mpr ⟨_, read, rfl⟩⟩

theorem instructionAt_service (word : block.word ip = .ok w)
    (known : Opcode.ofWord? w = some .int) (behind : block.word (ip + 1) = .ok s)
    (served : Interrupt.ofWord? s = some service)
    (read : block.operandsAt service.layout (ip + 2) = .ok (operands, next)) :
    block.instructionAt ip = .ok ⟨ip, .interrupt service, operands, next⟩ := by
  have operation : block.operationAt ip = .ok (.interrupt service, ip + 2) := by
    refine (bind_ok).mpr ⟨w, word, ?_⟩
    rw [known]
    refine (bind_ok).mpr ⟨s, behind, ?_⟩
    rw [served]
    rfl
  exact (bind_ok).mpr ⟨_, operation, (bind_ok).mpr ⟨_, read, rfl⟩⟩

theorem Blames.not_plain (blames : block.Blames ip fault) : ¬ fault.Plain := by
  cases blames <;> exact id

theorem operationAt_rejects (unknown : ¬ fault.Plain)
    (rejected : block.operationAt ip = .error fault) :
    block.Blames ip fault ∧ fault.Justified := by
  -- A missing word is another fault, so the words in question were read.
  have readable : ∀ {position}, block.word position = .error fault → False :=
    fun missing => unknown ((sincere_word).plain_of_eq missing)
  unfold operationAt at rejected
  cases word : block.word ip with
  | error other =>
    rw [word] at rejected
    cases rejected
    exact (readable word).elim
  | ok w =>
    rw [word] at rejected
    dsimp only [Bind.bind, Except.bind] at rejected
    split at rejected
    · rename_i nothing
      cases rejected
      exact ⟨.opcode word, nothing⟩
    · rename_i int
      cases behind : block.word (ip + 1) with
      | error other =>
        rw [behind] at rejected
        cases rejected
        exact (readable behind).elim
      | ok s =>
        rw [behind] at rejected
        dsimp only at rejected
        split at rejected
        · rename_i nothing
          cases rejected
          exact ⟨.service word int behind, nothing⟩
        · cases rejected
    · cases rejected

/-- The decoder calls a word unknown exactly if it is one that the position asks about and it stands
for nothing. -/
theorem instructionAt_rejects : (¬ fault.Plain ∧ block.instructionAt ip = .error fault) ↔
    block.Blames ip fault ∧ fault.Justified := by
  constructor
  · rintro ⟨unknown, rejected⟩
    cases operation : block.operationAt ip with
    | ok found =>
      have sincere : Sincere (block.instructionAt ip) := by
        unfold instructionAt
        rw [operation]
        exact (sincere_operandsAt).bind fun _ => ⟨trivial⟩
      exact absurd (sincere.plain_of_eq rejected) unknown
    | error other =>
      unfold instructionAt at rejected
      rw [operation] at rejected
      cases rejected
      exact operationAt_rejects unknown operation
  · rintro ⟨blames, justified⟩
    refine ⟨blames.not_plain, ?_⟩
    have rejected : block.operationAt ip = .error fault := by
      unfold operationAt
      cases blames with
      | opcode word =>
        replace justified : Opcode.ofWord? _ = none := justified
        rw [word]
        simp [Bind.bind, Except.bind, justified]
      | service word int behind =>
        replace justified : Interrupt.ofWord? _ = none := justified
        simp [Bind.bind, Except.bind, word, int, behind, justified]
    unfold instructionAt
    rw [rejected]
    rfl

end Codeblock

namespace Run

variable {env : Env} {m m' : Machine} {f : Frame} {below : List Frame} {w s : Word}
  {opcode : Opcode} {service : Interrupt} {fault : Fault}

section Begin

variable (frames : m.frames = f :: below)
include frames

theorem step_ended (ended : f.atEnd = true) : ∃ m', step env m = .ok (.done .ni) m' := by
  have looked : onFrame (fun f => return ((f.ip, f.atEnd), f)) env m =
      .ok (f.ip, true) { m with frames := f :: below } :=
    onFrame_ok frames (by rw [ended]; rfl)
  exact ⟨_, bind_ok looked⟩

theorem step_going (word : f.pattern.block.word f.ip = .ok w) :
    step env m = (match Opcode.ofWord? w with
      | none => fail (.unknownOpcode w f.ip)
      | some opcode => execute opcode : Run Flow) env (m.movedTo f below (f.ip + 1)) := by
  have going : f.atEnd = false := by
    unfold Codeblock.word at word
    split at word
    · rename_i found
      exact decide_eq_false (Nat.not_le.mpr (Array.getElem?_eq_some_iff.mp found).1)
    · cases word
  have looked : onFrame (fun f => return ((f.ip, f.atEnd), f)) env m =
      .ok (f.ip, false) { m with frames := f :: below } :=
    onFrame_ok frames (by rw [going]; rfl)
  have took : nextWord env { m with frames := f :: below } =
      .ok w (m.movedTo f below (f.ip + 1)) :=
    onFrame_ok rfl (by rw [word]; rfl)
  exact (bind_ok looked).trans (bind_ok took)

theorem interrupt_going (word : f.pattern.block.word f.ip = .ok s) :
    interrupt env m = (match Interrupt.ofWord? s with
      | none => fail (.unknownInterrupt s f.ip)
      | some service => do store (← serve service) : Run Unit) env
        (m.movedTo f below (f.ip + 1)) := by
  have looked : onFrame (fun f => return (f.ip, f)) env m =
      .ok f.ip { m with frames := f :: below } :=
    onFrame_ok frames rfl
  have took : nextWord env { m with frames := f :: below } =
      .ok s (m.movedTo f below (f.ip + 1)) :=
    onFrame_ok rfl (by rw [word]; rfl)
  exact (bind_ok looked).trans (bind_ok took)

/-- A step that goes on has executed the opcode of the word it stood on. -/
theorem step_opcode {flow : Flow} (done : step env m = .ok flow m') (goes : flow = .next) :
    ∃ w opcode, f.pattern.block.word f.ip = .ok w ∧ Opcode.ofWord? w = some opcode ∧
      execute opcode env (m.movedTo f below (f.ip + 1)) = .ok flow m' := by
  cases word : f.pattern.block.word f.ip with
  | error other =>
    have ended : f.atEnd = true := by
      unfold Codeblock.word at word
      split at word
      · cases word
      · rename_i missing
        exact decide_eq_true (Array.getElem?_eq_none_iff.mp missing)
    obtain ⟨left, stopped⟩ := step_ended frames ended
    cases stopped.symm.trans done
    cases goes
  | ok w =>
    rw [step_going frames word] at done
    cases known : Opcode.ofWord? w with
    | none =>
      rw [known] at done
      cases done
    | some opcode =>
      rw [known] at done
      exact ⟨w, opcode, rfl, known, done⟩

end Begin

/-- An instruction that is no jump leaves its frame behind its operands. -/
theorem advances_straight {operation : Operation} {operands : List Operand} {changed : Frame}
    (left : m'.frames = changed :: below) (shape : changed.shape = f.shape)
    (ahead : f.ip ≤ changed.ip) (straight : operation ≠ .opcode .jmp)
    (unconditional : ∀ opcode, operation = .opcode opcode → opcode.sense? = none) :
    Instruction.Advances env m f below ⟨f.ip, operation, operands, changed.ip⟩ m' := by
  have stays : ∀ target, ¬ Instruction.Jumps env m f below
      ⟨f.ip, operation, operands, changed.ip⟩ target := by
    rintro target (⟨jump, _⟩ | ⟨same, sense, _⟩)
    · exact straight jump
    · rw [unconditional _ same] at sense
      cases sense
  refine ⟨changed, left, shape, fun target jumps => (stays target jumps).elim, fun _ => ?_⟩
  simp only [Instruction.width]
  omega

variable (calls : env.Orderly)
include calls

/-- A step calls a word unknown exactly if it is one that the position asks about and it stands for
nothing. -/
theorem step_rejects (frames : m.frames = f :: below) : (f.pattern.block.Blames f.ip fault ∧
      ∃ m', step env m = .error (.fatal fault) m') ↔
    f.pattern.block.Blames f.ip fault ∧ fault.Justified := by
  refine and_congr_right fun blames => ⟨?_, fun justified => ?_⟩
  · rintro ⟨m', failed⟩
    have ends : Orderly 1 env step m := orderly_step calls
    unfold Orderly at ends
    rw [failed] at ends
    exact ends.2.2.1
  · cases blames with
    | opcode word =>
      replace justified : Opcode.ofWord? _ = none := justified
      refine ⟨m.movedTo f below (f.ip + 1), ?_⟩
      rw [step_going frames word, justified]
      rfl
    | service word int behind =>
      replace justified : Interrupt.ofWord? _ = none := justified
      refine ⟨(m.movedTo f below (f.ip + 1)).movedTo { f with ip := f.ip + 1 } below (f.ip + 2), ?_⟩
      rw [step_going frames word, int]
      refine bind_error ?_
      rw [interrupt_going rfl behind, justified]
      rfl

theorem advances_execute (plain : opcode ≠ .int) (straight : opcode ≠ .jmp)
    (unconditional : opcode.sense? = none) (word : f.pattern.block.word f.ip = .ok w)
    (known : Opcode.ofWord? w = some opcode) {flow : Flow}
    (done : execute opcode env (m.movedTo f below (f.ip + 1)) = .ok flow m') :
    ∃ i, f.pattern.block.instructionAt f.ip = .ok i ∧ i.Advances env m f below m' := by
  obtain ⟨operands, changed, read, left, shape⟩ :=
    takes_execute calls opcode plain straight unconditional done rfl
  refine ⟨_, Codeblock.instructionAt_opcode word known plain read, ?_⟩
  have ahead := Codeblock.operandsAt_next read
  refine advances_straight left shape (Nat.le_of_succ_le ahead) ?_ ?_
  · rintro ⟨⟩
    exact straight rfl
  · rintro _ ⟨⟩
    exact unconditional

theorem advances_interrupt (word : f.pattern.block.word f.ip = .ok w)
    (known : Opcode.ofWord? w = some .int) {flow : Flow}
    (done : execute .int env (m.movedTo f below (f.ip + 1)) = .ok flow m') :
    ∃ i, f.pattern.block.instructionAt f.ip = .ok i ∧ i.Advances env m f below m' := by
  obtain ⟨_, m₁, served, same⟩ := (bind_eq_ok).mp done
  obtain ⟨_, rfl⟩ := (pure_eq_ok).mp same
  cases behind : f.pattern.block.word (f.ip + 1) with
  | error fault =>
    have stopped : interrupt env (m.movedTo f below (f.ip + 1)) = .error (.fatal fault) _ :=
      (bind_ok (onFrame_ok rfl rfl)).trans (bind_error (onFrame_error rfl (by rw [behind]; rfl)))
    cases stopped.symm.trans served
  | ok s =>
    rw [interrupt_going rfl behind] at served
    cases found : Interrupt.ofWord? s with
    | none =>
      rw [found] at served
      cases served
    | some service =>
      rw [found] at served
      obtain ⟨operands, changed, read, left, shape⟩ := takes_served calls service served rfl
      refine ⟨_, Codeblock.instructionAt_service word known behind found read, ?_⟩
      have ahead := Codeblock.operandsAt_next read
      refine advances_straight left shape (Nat.le_trans (Nat.le_add_right f.ip 2) ahead) ?_ ?_
      · rintro ⟨⟩
      · rintro _ ⟨⟩

omit calls in
theorem advances_jump (word : f.pattern.block.word f.ip = .ok w)
    (known : Opcode.ofWord? w = some .jmp) {flow : Flow}
    (done : execute .jmp env (m.movedTo f below (f.ip + 1)) = .ok flow m') :
    ∃ i, f.pattern.block.instructionAt f.ip = .ok i ∧ i.Advances env m f below m' := by
  obtain ⟨i, m₁, indexed, rest⟩ := (bind_eq_ok).mp done
  obtain ⟨target, behind, rfl, rfl⟩ := nextIndex_eq_ok rfl indexed
  obtain ⟨_, m₂, jumped, same⟩ := (bind_eq_ok).mp rest
  obtain ⟨_, rfl⟩ := (pure_eq_ok).mp same
  have read : f.pattern.block.operandsAt [.position] (f.ip + 1) =
      .ok ([.position target], f.ip + 2) :=
    Codeblock.operandsAt_single ((Codeblock.bind_ok).mpr ⟨target, behind, rfl⟩)
  refine ⟨_, Codeblock.instructionAt_opcode word known (by decide) read, ?_⟩
  have left := jump_eq_ok rfl jumped
  refine ⟨{ f with ip := target.toNat }, left, rfl, ?_, fun stays => ?_⟩
  · rintro _ (⟨_, operands⟩ | ⟨same, sense, _⟩)
    · cases operands
      rfl
    · cases same
      cases sense
  · exact absurd (.always rfl rfl) (stays target.toNat)

theorem advances_branch {sense : Bool} (word : f.pattern.block.word f.ip = .ok w)
    (known : Opcode.ofWord? w = some opcode) (conditional : opcode.sense? = some sense) {flow : Flow}
    (done : branch sense env (m.movedTo f below (f.ip + 1)) = .ok flow m') :
    ∃ i, f.pattern.block.instructionAt f.ip = .ok i ∧ i.Advances env m f below m' := by
  obtain ⟨v, m₁, first, rest⟩ := (bind_eq_ok).mp done
  obtain ⟨r, registerRead, value, rfl⟩ := nextValue_eq_ok rfl first
  obtain ⟨i, m₂, second, rest⟩ := (bind_eq_ok).mp rest
  obtain ⟨target, targetRead, rfl, rfl⟩ := nextIndex_eq_ok rfl second
  obtain ⟨truth, m₃, tested, rest⟩ := (bind_eq_ok).mp rest
  replace tested : toVeracity v env (m.movedTo f below (f.ip + 3)) = .ok truth m₃ := tested
  have unmoved : m₃.frames = { f with ip := f.ip + 3 } :: below :=
    ((orderly_toVeracity calls v).moves tested).frames
  have layout : opcode.layout = [.register, .position] ∧ opcode ≠ .int ∧ opcode ≠ .jmp := by
    cases opcode <;> simp_all [Opcode.sense?, Opcode.layout]
  have read : f.pattern.block.operandsAt opcode.layout (f.ip + 1) =
      .ok ([.register r, .position target], f.ip + 3) := by
    rw [layout.1]
    exact Codeblock.operandsAt_append
      (Codeblock.operandsAt_single ((Codeblock.bind_ok).mpr ⟨r, registerRead, rfl⟩))
      (Codeblock.operandsAt_single ((Codeblock.bind_ok).mpr ⟨target, targetRead, rfl⟩))
  refine ⟨_, Codeblock.instructionAt_opcode word known layout.2.1 read, ?_⟩
  -- The jump is taken if the truth found is the one asked for, and then goes to the operand.
  have jumps : ∀ position, Instruction.Jumps env m f below
      ⟨f.ip, .opcode opcode, [.register r, .position target], f.ip + 3⟩ position →
        truth = sense ∧ position = target.toNat := by
    rintro position (⟨same, _⟩ | ⟨same, asked, operands, found, again⟩)
    · cases same
      exact absurd rfl layout.2.2
    · cases same
      cases operands
      cases value.symm.trans found
      cases tested.symm.trans again
      cases conditional.symm.trans asked
      exact ⟨rfl, rfl⟩
  by_cases taken : truth = sense
  · rw [if_pos taken] at rest
    obtain ⟨_, m₄, jumped, same⟩ := (bind_eq_ok).mp rest
    obtain ⟨_, rfl⟩ := (pure_eq_ok).mp same
    have left := jump_eq_ok unmoved jumped
    refine ⟨{ f with ip := target.toNat }, left, rfl,
      fun position goes => (jumps position goes).2.symm, fun stays => ?_⟩
    exact absurd (.conditional rfl conditional rfl value (taken ▸ tested)) (stays target.toNat)
  · rw [if_neg taken] at rest
    obtain ⟨_, rfl⟩ := (pure_eq_ok).mp rest
    refine ⟨{ f with ip := f.ip + 3 }, unmoved, rfl,
      fun position goes => absurd (jumps position goes).1 taken, fun _ => ?_⟩
    simp only [Instruction.width]
    omega

theorem step_advances (frames : m.frames = f :: below) (done : step env m = .ok .next m') :
    ∃ i, f.pattern.block.instructionAt f.ip = .ok i ∧ i.Advances env m f below m' := by
  obtain ⟨w, opcode, word, known, executed⟩ := step_opcode frames done rfl
  cases conditional : opcode.sense? with
  | some sense =>
    have branches : execute opcode = branch sense := by
      cases opcode <;> simp_all [Opcode.sense?, execute]
    rw [branches] at executed
    exact advances_branch calls word known conditional executed
  | none =>
    by_cases int : opcode = .int
    · subst int
      exact advances_interrupt calls word known executed
    · by_cases jmp : opcode = .jmp
      · subst jmp
        exact advances_jump word known executed
      · exact advances_execute calls int jmp conditional word known executed

end Run

namespace Machine

/-- The decoder and a step agree on the instruction at every position of every block. A step calls
the word it stands on unknown exactly if the decoder does, in the same words. If a step goes on, the
decoder knows the instruction, and the frame is left at the target of a jump that is taken and behind
the words of the instruction otherwise. -/
theorem step_agrees (depth : Nat) (m : Machine) (f : Frame) (below : List Frame)
    (frames : m.frames = f :: below) :
    (∀ fault, (¬ fault.Plain ∧ f.pattern.block.instructionAt f.ip = .error fault) ↔
      f.pattern.block.Blames f.ip fault ∧
        ∃ m', Run.step (calling depth) m = .error (.fatal fault) m') ∧
    ∀ m', Run.step (calling depth) m = .ok .next m' →
      ∃ i, f.pattern.block.instructionAt f.ip = .ok i ∧
        i.Advances (calling depth) m f below m' := by
  have calls : (calling depth).Orderly := callAt_orderly depth depth
  refine ⟨fun fault => ?_, fun m' => Run.step_advances calls frames⟩
  rw [Codeblock.instructionAt_rejects, Run.step_rejects calls frames]

/-- The entry calls a journey of two parameters and then comes to a word that stands for nothing. -/
def stumble : Image where
  journeys := [
    { name := "main"
      patterns := [{ block := { registers := 3, constants := [.journey 1], code := [
        Opcode.cload.word, 0, 0, Opcode.call.word, 0, 2, 1, 1, 2, 7] } }] },
    { name := "pair"
      patterns := [{ positional := [{ name := "a" }, { name := "b" }],
                     block := { registers := 2, code := [Opcode.ret.word, 0] } }] }]
  main := some 0

/-- The second instruction of the entry is a call of six words that returns, the fourth a word that
stands for nothing. -/
def stumbles (m : Machine) : Bool :=
  let calls := after ((m.withBudget 1).run (Run.runMain []))
  let stops := after ((m.withBudget 3).run (Run.runMain []))
  match calls.frames, stops.frames with
  | [f], [g] =>
    (match f.pattern.block.instructionAt f.ip with
      | .ok i => f.ip = 3 && i.operation = .opcode .call && i.width = 6
      | .error _ => false) &&
    (match Run.step (calling 9) (calls.withBudget 5) with
      | .ok .next _ => true
      | _ => false) &&
    match g.pattern.block.instructionAt g.ip with
      | .error fault => fault = .unknownOpcode 7 9
      | .ok _ => false
  | _, _ => false

/-- At its second fetch the entry stands on a call of six words, which runs the other journey and is
passed over; at its fourth it stands on the word that the decoder and the step both reject. -/
theorem stumble_agrees : ∃ m, Loads narrow {} stumble m ∧
    (let calls := after ((m.withBudget 1).run (Run.runMain []))
     ∃ f changed m', calls.frames = [f] ∧ f.ip = 3 ∧
      Run.step (calling 9) (calls.withBudget 5) = .ok .next m' ∧
      m'.frames = [changed] ∧ changed.ip = 9) ∧
    let stops := after ((m.withBudget 3).run (Run.runMain []))
    ∃ f m', stops.frames = [f] ∧
      f.pattern.block.instructionAt f.ip = .error (.unknownOpcode 7 9) ∧
      Run.step (calling 9) stops = .error (.fatal (.unknownOpcode 7 9)) m' := by
  obtain ⟨m, loads, checked⟩ := loads_of narrow {} stumble stumbles (by decide +kernel)
  unfold stumbles at checked
  dsimp only at checked
  split at checked
  · rename_i f g first second
    simp only [Bool.and_eq_true] at checked
    obtain ⟨⟨decoded, stepped⟩, rejected⟩ := checked
    refine ⟨m, loads, ?_, ?_⟩
    · split at stepped
      · rename_i m' done
        obtain ⟨i, known, changed, left, _, _, passes⟩ :=
          (step_agrees 9 (withBudget _ 5) f [] first).2 m' done
        rw [known] at decoded
        simp only [Bool.and_eq_true, decide_eq_true_eq] at decoded
        obtain ⟨⟨ip, operation⟩, width⟩ := decoded
        have passed : changed.ip = f.ip + i.width := by
          refine passes fun target jumps => ?_
          rcases jumps with ⟨same, _⟩ | ⟨same, sense, _⟩ <;> rw [operation] at same <;> cases same
          cases sense
        exact ⟨f, changed, m', first, ip, done, left, by rw [passed, ip, width]⟩
      · contradiction
    · split at rejected
      · rename_i fault known
        cases of_decide_eq_true rejected
        obtain ⟨_, m', failed⟩ := ((step_agrees 9 _ g [] second).1 _).mp ⟨id, known⟩
        exact ⟨g, m', second, known, failed⟩
      · contradiction
  · contradiction

end Machine

end JourneyMachine
