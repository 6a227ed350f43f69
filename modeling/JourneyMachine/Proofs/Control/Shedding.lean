import JourneyMachine.Proofs.Code.Agreement

namespace JourneyMachine

namespace Run

variable {α β : Type} {env : Env} {m m' : Machine} {f : Frame} {below : List Frame}

/-- Where a computation ends in a value or a throw, it has at most removed the newest handlers. -/
def Shed (m : Machine) : EStateM.Result Unwind Machine α → Prop
  | .ok _ m' => m'.handlers.records <:+ m.handlers.records
  | .error .thrown m' => m'.handlers.records <:+ m.handlers.records
  | .error _ _ => True

/-- A computation at most removes the newest handlers. -/
def Sheds (env : Env) (c : Run α) : Prop := ∀ m, Shed m (c env m)

section Rules

variable {c : Run α} {k : α → Run β}

theorem Sheds.orderly (orderly : ∀ m, Orderly 0 env c m) : Sheds env c := by
  intro m
  have ends := orderly m
  unfold Orderly at ends
  rcases same : c env m with _ | ⟨_ | _ | _, _⟩ <;> rw [same] at ends
  · exact ends.1.records.suffix
  · exact ends.1.records.suffix
  · trivial
  · trivial

theorem Sheds.bind (first : Sheds env c) (next : ∀ a, Sheds env (k a)) : Sheds env (c >>= k) := by
  intro m
  have shed := first m
  cases same : c env m with
  | error unwind m₁ =>
    rw [same] at shed
    rw [bind_error same]
    cases unwind <;> exact shed
  | ok a m₁ =>
    rw [same] at shed
    rw [bind_ok same]
    have later := next a m₁
    rcases ended : k a env m₁ with _ | ⟨_ | _ | _, _⟩ <;> rw [ended] at later
    · exact List.IsSuffix.trans later shed
    · exact List.IsSuffix.trans later shed
    · trivial
    · trivial

theorem Sheds.onFrame {g : Frame → Except Fault (α × Frame)} : Sheds env (onFrame g) := by
  intro m
  unfold Run.onFrame
  split
  · trivial
  · split
    · exact List.suffix_refl _
    · trivial

theorem Sheds.pure {a : α} : Sheds env (Pure.pure a) := .orderly fun _ => .pure

theorem Sheds.fail {fault : Fault} : Sheds env (Run.fail fault : Run α) := fun _ => trivial

theorem Sheds.ite {test : Prop} [Decidable test] {d : Run α} (holds : Sheds env c)
    (fails : Sheds env d) : Sheds env (if test then c else d) := by
  split
  · exact holds
  · exact fails

theorem Sheds.get {k : Machine → Run β} (next : ∀ m, Sheds env (k m)) :
    Sheds env (MonadState.get >>= k) := fun m => next m m

end Rules

section Operands

theorem sheds_nextIndex : Sheds env nextIndex := (Sheds.onFrame).bind fun _ => .pure

theorem sheds_nextValue : Sheds env nextValue := (sheds_nextIndex).bind fun _ => .onFrame

theorem sheds_store (v : Value) : Sheds env (store v) := (sheds_nextIndex).bind fun _ => .onFrame

theorem sheds_nextConstant : Sheds env nextConstant := (Sheds.onFrame).bind fun _ => .onFrame

theorem sheds_nextValues (count : Nat) : Sheds env (nextValues count) := by
  induction count with
  | zero => exact .pure
  | succ count ih => exact (sheds_nextValue).bind fun _ => ih.bind fun _ => .pure

theorem sheds_nextPairs (count : Nat) : Sheds env (nextPairs count) := by
  induction count with
  | zero => exact .pure
  | succ count ih =>
    exact (sheds_nextValue).bind fun _ => (sheds_nextValue).bind fun _ => ih.bind fun _ => .pure

theorem sheds_countedValues : Sheds env countedValues :=
  (sheds_nextIndex).bind fun _ => sheds_nextValues _

theorem sheds_nextName : Sheds env nextName :=
  (sheds_nextConstant).bind fun _ => .orderly fun _ => (Orderly.ofExcept).bind fun _ _ => .onHeap

theorem sheds_nextKeywords (count : Nat) : Sheds env (nextKeywords count) := by
  induction count with
  | zero => exact .pure
  | succ count ih =>
    refine (sheds_nextConstant).bind fun name => (sheds_nextValue).bind fun v => ?_
    refine Sheds.bind (.orderly fun _ => .ofExcept) fun _ => ?_
    exact Sheds.bind (.orderly fun _ => .onHeap) fun _ => ih.bind fun _ => .pure

/-- What is done with the next register, without code of the frame on top. -/
theorem sheds_operand {g : Value → Run α} (each : ∀ v m, Orderly 0 env (g v) m) :
    Sheds env (nextValue >>= g) :=
  (sheds_nextValue).bind fun v => .orderly (each v)

theorem sheds_operands {g : Value → Value → Run α} (each : ∀ a b m, Orderly 0 env (g a b) m) :
    Sheds env (do
      let a ← nextValue
      let b ← nextValue
      g a b) :=
  (sheds_nextValue).bind fun a => sheds_operand (each a)

end Operands

section Services

variable (calls : env.Orderly)
include calls

theorem sheds_serve (service : Interrupt) : Sheds env (serve service) := by
  cases service
  case toNumeral =>
    exact sheds_operand fun v _ => (orderly_toNumeral calls v).bind fun _ _ => .pure
  case toText => exact sheds_operand fun v _ => orderly_toTextValue calls v
  case toVeracity =>
    exact sheds_operand fun v _ => (orderly_toVeracity calls v).bind fun _ _ => .pure
  case toBook => exact sheds_operand fun v _ => orderly_toBook calls v
  case toCodex => exact sheds_operand fun v _ => orderly_toCodex calls v
  case kindof => exact sheds_operand fun v _ => orderly_genusOf v
  case length => exact sheds_operand fun v _ => (orderly_length calls v).bind fun _ _ => .pure
  case arabic | roman =>
    exact sheds_operand fun v _ => (orderly_toNumeral calls v).bind fun _ _ => orderly_newText _
  case ascii => exact sheds_operand fun v _ => orderly_ascii v
  case print | println =>
    exact sheds_operand fun v _ => (orderly_toText calls v).bind fun _ _ =>
      (orderly_print ..).bind fun _ _ => .pure
  case dump =>
    exact sheds_operand fun v _ => (Orderly.onHeap).bind fun _ _ =>
      (orderly_print ..).bind fun _ _ => .pure
  case prompt => exact .orderly fun _ => orderly_prompt
  case system =>
    exact sheds_operand fun v _ => (orderly_toText calls v).bind fun _ _ => orderly_system _
  case exit => exact sheds_operand fun v _ => (orderly_toNumeral calls v).bind fun n _ => orderly_exit n
  case random => exact .orderly fun _ => .still rfl rfl
  case codexNew =>
    exact (sheds_nextIndex).bind fun _ => (sheds_nextPairs _).bind fun _ =>
      .orderly fun _ => orderly_newCodex calls _
  case bookNew => exact (sheds_countedValues).bind fun _ => .orderly fun _ => orderly_newBook _
  case substr =>
    exact (sheds_nextValue).bind fun _ => sheds_operands fun _ _ _ => orderly_substr calls ..
  case arrayInsert =>
    exact (sheds_nextValue).bind fun _ => sheds_operands fun _ _ _ =>
      (orderly_insertPage calls ..).bind fun _ _ => .pure
  case arrayDelete => exact sheds_operands fun _ _ _ => orderly_delete calls ..
  case babel =>
    exact (sheds_nextValue).bind fun _ => (sheds_nextValue).bind fun _ =>
      (sheds_countedValues).bind fun _ => .orderly fun _ => orderly_babel calls ..
  case fopen =>
    exact sheds_operands fun filename mode _ => (orderly_toText calls filename).bind fun _ _ =>
      (orderly_toText calls mode).bind fun _ _ => orderly_openScroll ..

theorem sheds_interrupt : Sheds env interrupt := by
  refine (Sheds.onFrame).bind fun _ => (Sheds.onFrame).bind fun w => ?_
  split
  · exact .fail
  · exact (sheds_serve calls _).bind sheds_store

end Services

section Instructions

theorem sheds_unary {g : Value → Run Value} (each : ∀ v m, Orderly 0 env (g v) m) :
    Sheds env (unary g) :=
  (sheds_nextValue).bind fun v => (Sheds.orderly (each v)).bind fun _ =>
    (sheds_store _).bind fun _ => .pure

theorem sheds_binary {g : Value → Value → Run Value} (each : ∀ a b m, Orderly 0 env (g a b) m) :
    Sheds env (binary g) :=
  (sheds_nextValue).bind fun a => (sheds_nextValue).bind fun b =>
    (Sheds.orderly (each a b)).bind fun _ => (sheds_store _).bind fun _ => .pure

theorem sheds_storeGuard (fieldCount : Form → Nat) (set : Form → Nat → Value → Form) :
    Sheds env (storeGuard fieldCount set) := by
  refine (sheds_nextValue).bind fun _ => (sheds_nextValue).bind fun _ =>
    (sheds_nextIndex).bind fun _ => .orderly fun _ => ?_
  refine (Orderly.ofExcept).bind fun _ _ => (Orderly.onHeap).bind fun _ _ => .ite ?_ (.fail trivial)
  exact (orderly_editForm ..).bind fun _ _ => .pure

variable (calls : env.Orderly)
include calls

theorem sheds_branch (sense : Bool) : Sheds env (branch sense) := by
  refine (sheds_nextValue).bind fun condition => (sheds_nextIndex).bind fun target => ?_
  refine Sheds.bind (.orderly fun _ => orderly_toVeracity calls condition) fun truth => ?_
  exact .ite ((Sheds.onFrame).bind fun _ => .pure) .pure

theorem sheds_callInstruction (hasKeywords : Bool) : Sheds env (callInstruction hasKeywords) := by
  have called : ∀ callee args, Sheds env (fun env => env.call callee args) :=
    fun callee args => .orderly (calls callee args)
  have stored : ∀ callee args, Sheds env (do
      let env ← read
      store (← env.call callee args)
      return Flow.next) := fun callee args => (called callee args).bind fun _ =>
    (sheds_store _).bind fun _ => .pure
  refine (sheds_nextValue).bind fun callee => (sheds_countedValues).bind fun positional => ?_
  cases hasKeywords
  · exact stored callee _
  · exact (sheds_nextIndex).bind fun _ => (sheds_nextKeywords _).bind fun _ => stored callee _

/-- Every instruction but the one that installs a handler. -/
theorem sheds_execute (opcode : Opcode) (other : opcode ≠ .tryCatch) :
    Sheds env (execute opcode) := by
  cases opcode
  case tryCatch => exact absurd rfl other
  case noop => exact .pure
  case mov => exact sheds_unary fun _ _ => .pure
  case int => exact (sheds_interrupt calls).bind fun _ => .pure
  case jmp => exact (sheds_nextIndex).bind fun _ => (Sheds.onFrame).bind fun _ => .pure
  case jmpTrue | jmpFalse => exact sheds_branch calls _
  case call | callKw => exact sheds_callInstruction calls _
  case ret => exact (sheds_nextValue).bind fun _ => .pure
  case throw => exact sheds_operand fun v _ => .raise v
  case popTryCatch => exact .orderly fun _ => orderly_removeHandler
  case not => exact sheds_unary fun v _ => orderly_not calls v
  case neg => exact sheds_unary fun v _ => orderly_neg calls v
  case eql | neq => exact sheds_binary fun _ _ _ => (orderly_eql calls ..).bind fun _ _ => .pure
  case lth | gth | leq | geq | cmp =>
    exact sheds_binary fun _ _ _ => (orderly_cmp calls ..).bind fun _ _ => .pure
  case add => exact sheds_binary fun _ _ _ => orderly_add calls ..
  case sub => exact sheds_binary fun _ _ _ => orderly_sub calls ..
  case mul => exact sheds_binary fun _ _ _ => orderly_mul calls ..
  case div => exact sheds_binary fun _ _ _ => orderly_div calls ..
  case mod => exact sheds_binary fun _ _ _ => orderly_rem calls ..
  case pow => exact sheds_binary fun _ _ _ => orderly_pow calls ..
  case index => exact sheds_binary fun _ _ _ => orderly_index calls ..
  case indexAssign =>
    exact (sheds_nextValue).bind fun _ => sheds_operands fun _ _ _ =>
      (orderly_indexAssign calls ..).bind fun _ _ => .pure
  case fits => exact sheds_binary fun _ _ _ => (orderly_fits calls ..).bind fun _ _ => .pure
  case patAnd | patOr =>
    exact sheds_binary fun _ _ _ => (Orderly.allocate _).bind fun _ _ => .pure
  case patNot => exact sheds_unary fun _ _ => (Orderly.allocate _).bind fun _ _ => .pure
  case cload => exact (sheds_nextConstant).bind fun _ => (sheds_store _).bind fun _ => .pure
  case gload =>
    refine (sheds_nextIndex).bind fun _ => .get fun m => ?_
    split
    · exact (sheds_store _).bind fun _ => .pure
    · exact .fail
  case gstore =>
    refine (sheds_nextValue).bind fun _ => (sheds_nextIndex).bind fun _ => .orderly fun _ => ?_
    exact .get (.ite ((Orderly.modify rfl).bind fun _ _ => .pure) (.fail trivial))
  case iload =>
    refine (sheds_nextValue).bind fun v => (sheds_nextName).bind fun name => ?_
    refine Sheds.bind (.orderly fun _ => orderly_attribute calls v name) fun found => ?_
    cases found with
    | some found => exact (sheds_store _).bind fun _ => .pure
    | none => exact .orderly fun _ => orderly_complainOf v (.unknownAttribute name)
  case istore =>
    refine (sheds_nextValue).bind fun v => (sheds_nextValue).bind fun new =>
      (sheds_nextName).bind fun name => .orderly fun _ => ?_
    exact (orderly_setAttribute calls v name new).bind fun _ _ =>
      .ite .pure (orderly_complainOf v (.cannotAssign name))
  case feGenusStore | fmGenusStore => exact sheds_storeGuard _ _

end Instructions

theorem bind_eq_thrown {c : Run α} {k : α → Run β} : (c >>= k) env m = .error .thrown m' ↔
    c env m = .error .thrown m' ∨ ∃ a m₁, c env m = .ok a m₁ ∧ k a env m₁ = .error .thrown m' := by
  cases same : c env m with
  | ok a m₁ => simp [bind_ok same]
  | error unwind m₁ => simp [bind_error same]

section Handlers

def install (resume register : Nat) : Run Flow := do
  let m ← get
  match m.handlers.push? { frame := m.frameDepth - 1, resume, register } with
  | some handlers =>
    modify fun m => { m with handlers }
    return .next
  | none => complain .tooManyHandlers

theorem install_cases (resume register : Nat) :
    install resume register env m = .ok .next { m with handlers.records :=
      ⟨m.frameDepth - 1, resume, register⟩ :: m.handlers.records } ∨
    install resume register env m = complain .tooManyHandlers env m := by
  by_cases full : m.handlers.limit ≤ m.handlers.depth
  · have refused : m.handlers.push? ⟨m.frameDepth - 1, resume, register⟩ = none := if_pos full
    right
    refine (bind_ok (a := m) rfl).trans ?_
    simp only [refused]
  · have pushed : m.handlers.push? ⟨m.frameDepth - 1, resume, register⟩ = some _ := if_neg full
    left
    refine (bind_ok (a := m) rfl).trans ?_
    simp only [pushed]
    rfl

/-- Where no handler can be installed, none is removed either. -/
theorem installHandler_thrown (thrown : installHandler env m = .error .thrown m') :
    m'.handlers.records <:+ m.handlers.records := by
  have read : Sheds env (do return (← nextIndex, ← nextIndex)) :=
    (sheds_nextIndex).bind fun _ => (sheds_nextIndex).bind fun _ => .pure
  have shed := read m
  have same : installHandler = (do return (← nextIndex, ← nextIndex)) >>=
      fun words => install words.1 words.2 := by
    simp only [bind_assoc, pure_bind]
    rfl
  rw [same] at thrown
  rcases (bind_eq_thrown).mp thrown with early | ⟨words, m₁, done, late⟩
  · rw [early] at shed
    exact shed
  · rw [done] at shed
    rcases install_cases words.1 words.2 with pushed | refused
    · cases pushed.symm.trans late
    · have complained : Sheds env (complain .tooManyHandlers : Run Flow) :=
        .orderly fun _ => orderly_complain _
      have later := complained m₁
      rw [refused.symm.trans late] at later
      exact List.IsSuffix.trans later shed

theorem installHandler_eq_ok {flow : Flow} (frames : m.frames = f :: below)
    (done : installHandler env m = .ok flow m') :
    ∃ resume register, f.pattern.block.word f.ip = .ok resume ∧
      f.pattern.block.word (f.ip + 1) = .ok register ∧
      m'.frames = { f with ip := f.ip + 2 } :: below ∧
      m'.handlers.records = ⟨below.length, resume.toNat, register.toNat⟩ :: m.handlers.records := by
  obtain ⟨_, m₁, first, rest⟩ := (bind_eq_ok).mp done
  obtain ⟨resume, at₁, rfl, rfl⟩ := nextIndex_eq_ok frames first
  obtain ⟨_, m₂, second, rest⟩ := (bind_eq_ok).mp rest
  obtain ⟨register, at₂, rfl, rfl⟩ := nextIndex_eq_ok rfl second
  refine ⟨resume, register, at₁, at₂, ?_⟩
  rcases install_cases resume.toNat register.toNat with pushed | refused
  · cases pushed.symm.trans rest
    exact ⟨rfl, rfl⟩
  · exact (fruitless_complain _ _ _ (refused.symm.trans rest)).elim

end Handlers

section Flow

/-- A computation that asks the loop to go on, if it ends in a value. -/
def Continues (env : Env) (c : Run Flow) : Prop := ∀ m flow m', c env m = .ok flow m' → flow = .next

theorem Continues.next : Continues env (pure .next) := by
  intro m flow m' done
  exact ((pure_eq_ok).mp done).1.symm

theorem Continues.bind {c : Run α} {k : α → Run Flow} (next : ∀ a, Continues env (k a)) :
    Continues env (c >>= k) := by
  intro m flow m' done
  obtain ⟨a, m₁, _, rest⟩ := (bind_eq_ok).mp done
  exact next a m₁ flow m' rest

theorem Continues.ite {test : Prop} [Decidable test] {c d : Run Flow} (holds : Continues env c)
    (fails : Continues env d) : Continues env (if test then c else d) := by
  split
  · exact holds
  · exact fails

theorem Continues.fruitless {c : Run Flow} (fruitless : Fruitless env c) : Continues env c :=
  fun m flow m' done => (fruitless m flow m' done).elim

theorem continues_unary {g : Value → Run Value} : Continues env (unary g) :=
  .bind fun _ => .bind fun _ => .bind fun _ => .next

theorem continues_binary {g : Value → Value → Run Value} : Continues env (binary g) :=
  .bind fun _ => .bind fun _ => .bind fun _ => .bind fun _ => .next

/-- Only one instruction ends the code. -/
theorem continues_execute (opcode : Opcode) (other : opcode ≠ .ret) :
    Continues env (execute opcode) := by
  cases opcode
  case ret => exact absurd rfl other
  case noop => exact .next
  case mov | not | neg | patNot => exact continues_unary
  case int => exact .bind fun _ => .next
  case jmp => exact .bind fun _ => .bind fun _ => .next
  case jmpTrue | jmpFalse =>
    exact .bind fun _ => .bind fun _ => .bind fun _ => .ite (.bind fun _ => .next) .next
  case call =>
    exact .bind fun _ => .bind fun _ => .bind fun _ => .bind fun _ => .bind fun _ => .bind fun _ =>
      .next
  case callKw =>
    exact .bind fun _ => .bind fun _ => .bind fun _ => .bind fun _ => .bind fun _ => .bind fun _ =>
      .bind fun _ => .next
  case tryCatch =>
    refine .bind fun resume => .bind fun register => ?_
    intro m flow m' done
    rcases install_cases resume register with pushed | refused
    · cases pushed.symm.trans done
      rfl
    · exact (fruitless_complain _ _ _ (refused.symm.trans done)).elim
  case throw => exact .fruitless (Fruitless.bind fun _ => fruitless_raise)
  case popTryCatch =>
    refine .bind fun m => ?_
    split
    · exact .bind fun _ => .next
    · exact .fruitless fruitless_fail
  case eql | neq | lth | gth | leq | geq | cmp | add | sub | mul | div | mod | pow | index | fits
    | patAnd | patOr => exact continues_binary
  case indexAssign => exact .bind fun _ => .bind fun _ => .bind fun _ => .bind fun _ => .next
  case cload => exact .bind fun _ => .bind fun _ => .next
  case gload =>
    refine .bind fun _ => .bind fun _ => ?_
    split
    · exact .bind fun _ => .next
    · exact .fruitless fruitless_fail
  case gstore =>
    exact .bind fun _ => .bind fun _ => .bind fun _ => .ite (.bind fun _ => .next)
      (.fruitless fruitless_fail)
  case iload =>
    refine .bind fun _ => .bind fun _ => .bind fun found => ?_
    split
    · exact .bind fun _ => .next
    · exact .fruitless (Fruitless.bind fun _ => fruitless_complain)
  case istore =>
    exact .bind fun _ => .bind fun _ => .bind fun _ => .bind fun _ => .ite .next
      (.fruitless (Fruitless.bind fun _ => fruitless_complain))
  case feGenusStore | fmGenusStore =>
    exact .bind fun _ => .bind fun _ => .bind fun _ => .bind fun _ => .bind fun _ =>
      .ite (.bind fun _ => .next) (.fruitless fruitless_fail)

end Flow

section Steps

variable (frames : m.frames = f :: below)
include frames

/-- A step returns at the end of the code, meets a fault, or executes the opcode it stands on. -/
theorem step_cases (env : Env) : (f.atEnd = true ∧ step env m = .ok (.done .ni) m) ∨
    (∃ fault m', step env m = .error (.fatal fault) m') ∨
    ∃ w opcode, f.pattern.block.word f.ip = .ok w ∧ Opcode.ofWord? w = some opcode ∧
      step env m = execute opcode env (m.movedTo f below (f.ip + 1)) := by
  cases word : f.pattern.block.word f.ip with
  | error other =>
    have ended : f.atEnd = true := by
      unfold Codeblock.word at word
      split at word
      · cases word
      · rename_i missing
        exact decide_eq_true (Array.getElem?_eq_none_iff.mp missing)
    have looked : onFrame (fun f => return ((f.ip, f.atEnd), f)) env m = .ok (f.ip, true) m := by
      have same : { m with frames := f :: below } = m := by rw [← frames]
      rw [onFrame_ok frames (by rw [ended]; rfl), same]
    exact .inl ⟨ended, bind_ok looked⟩
  | ok w =>
    have going : step env m = _ := step_going frames word
    cases known : Opcode.ofWord? w with
    | none =>
      rw [known] at going
      exact .inr (.inl ⟨_, _, going⟩)
    | some opcode =>
      rw [known] at going
      exact .inr (.inr ⟨w, opcode, rfl, known, going⟩)

/-- A step that returns leaves the handlers as they are. -/
theorem step_done {v : Value} (done : step env m = .ok (.done v) m') :
    m'.handlers = m.handlers ∧ (f.atEnd = true ∨
      ∃ w, f.pattern.block.word f.ip = .ok w ∧ Opcode.ofWord? w = some .ret) := by
  rcases step_cases frames env with ⟨ended, stopped⟩ | ⟨fault, left, failed⟩ |
    ⟨w, opcode, word, known, going⟩
  · cases stopped.symm.trans done
    exact ⟨rfl, .inl ended⟩
  · cases failed.symm.trans done
  · rw [going] at done
    have ret : opcode = .ret := by
      by_contra other
      cases continues_execute opcode other _ _ _ done
    subst ret
    obtain ⟨_, m₁, read, same⟩ := (bind_eq_ok).mp done
    obtain ⟨_, _, _, rfl⟩ := nextValue_eq_ok rfl read
    obtain ⟨_, rfl⟩ := (pure_eq_ok).mp same
    exact ⟨rfl, .inr ⟨w, word, known⟩⟩

theorem step_thrown (calls : env.Orderly) (thrown : step env m = .error .thrown m') :
    m'.handlers.records <:+ m.handlers.records := by
  rcases step_cases frames env with ⟨ended, stopped⟩ | ⟨fault, left, failed⟩ |
    ⟨w, opcode, word, known, going⟩
  · cases stopped.symm.trans thrown
  · cases failed.symm.trans thrown
  · rw [going] at thrown
    by_cases installs : opcode = .tryCatch
    · subst installs
      have shed : m'.handlers.records <:+ (m.movedTo f below (f.ip + 1)).handlers.records :=
        installHandler_thrown thrown
      exact shed
    · have shed := sheds_execute calls opcode installs (m.movedTo f below (f.ip + 1))
      rw [thrown] at shed
      exact shed

end Steps

end Run

end JourneyMachine
