import JourneyMachine.Code.Opcode
import JourneyMachine.Machine.Interrupts

/-!
# Instructions

One instruction of the frame on top, and the loop that runs a frame until it returns. A throw that
reaches the loop resumes at the newest handler if this frame installed it; otherwise it goes on to
the caller. `Machine.callAt` ties the knot: it calls a value where everything inside calls one level
further down.
-/

namespace JourneyMachine

/-- What an instruction asks of the loop. -/
inductive Flow where
  | next
  | done (v : Value)
deriving DecidableEq, Repr

namespace Run

def unary (f : Value → Run Value) : Run Flow := do
  store (← f (← nextValue))
  return .next

def binary (f : Value → Value → Run Value) : Run Flow := do
  let a ← nextValue
  let b ← nextValue
  store (← f a b)
  return .next

def comparison (test : Int64 → Bool) : Run Flow :=
  binary fun a b => return .veracity (test (← cmp a b))

def branch (sense : Bool) : Run Flow := do
  let condition ← nextValue
  let target ← nextIndex
  if (← toVeracity condition) = sense then jump target
  return .next

/-- Reads that many keyword arguments: the name as a constant text, and a register. -/
def nextKeywords : Nat → Run (List (String × Value))
  | 0 => return []
  | count + 1 => do
    let name ← nextConstant
    let v ← nextValue
    let name ← text (← ofExcept (name.expectHandle .text))
    return (name, v) :: (← nextKeywords count)

def nextName : Run String := do
  text (← ofExcept ((← nextConstant).expectHandle .text))

def callInstruction (hasKeywords : Bool) : Run Flow := do
  let callee ← nextValue
  let positional ← countedValues
  let keywords ← if hasKeywords then nextKeywords (← nextIndex) else pure []
  let env ← read
  store (← env.call callee { positional, keywords })
  return .next

def installHandler : Run Flow := do
  let resume ← nextIndex
  let register ← nextIndex
  let m ← get
  match m.handlers.push? { frame := m.frameDepth - 1, resume, register } with
  | some handlers =>
    modify fun m => { m with handlers }
    return .next
  | none => complain .tooManyHandlers

def removeHandler : Run Flow := do
  match (← get).handlers.pop? with
  | some (_, handlers) =>
    modify fun m => { m with handlers }
    return .next
  | none => fail (.malformed .noHandler)

def storeGuard (fieldCount : Form → Nat) (set : Form → Nat → Value → Form) : Run Flow := do
  let target ← nextValue
  let guard ← nextValue
  let i ← nextIndex
  let h ← ofExcept (target.expectHandle .form)
  if i < fieldCount (← form h) then
    editForm h (set · i guard)
    return .next
  else fail (.malformed (.fieldRange i))

def execute (opcode : Opcode) : Run Flow :=
  match opcode with
  | .noop => return .next
  | .mov => unary pure
  | .int => do
    interrupt
    return .next
  | .jmp => do
    jump (← nextIndex)
    return .next
  | .jmpTrue => branch true
  | .jmpFalse => branch false
  | .call => callInstruction false
  | .callKw => callInstruction true
  | .ret => return .done (← nextValue)
  | .tryCatch => installHandler
  | .throw => do raise (← nextValue)
  | .popTryCatch => removeHandler
  | .not => unary not
  | .neg => unary neg
  | .eql => binary fun a b => return .veracity (← eql a b)
  | .neq => binary fun a b => return .veracity !(← eql a b)
  | .lth => comparison (·.toInt < 0)
  | .gth => comparison (0 < ·.toInt)
  | .leq => comparison (·.toInt ≤ 0)
  | .geq => comparison (0 ≤ ·.toInt)
  | .cmp => binary fun a b => return .numeral (Int64.ofInt (← cmp a b).toInt.sign)
  | .add => binary add
  | .sub => binary sub
  | .mul => binary mul
  | .div => binary div
  | .mod => binary rem
  | .pow => binary pow
  | .index => binary index
  | .indexAssign => do
    let container ← nextValue
    let key ← nextValue
    let new ← nextValue
    indexAssign container key new
    return .next
  | .fits => binary fun a b => return .veracity (← fits a b)
  | .patAnd => binary fun a b => return .other (← allocate (.other (.both a b)))
  | .patOr => binary fun a b => return .other (← allocate (.other (.either a b)))
  | .patNot => unary fun a => return .other (← allocate (.other (.opposite a)))
  | .cload => do
    store (← nextConstant)
    return .next
  | .gload => do
    let i ← nextIndex
    match (← get).program.global? i with
    | some v =>
      store v
      return .next
    | none => fail (.malformed (.globalRange i))
  | .gstore => do
    let v ← nextValue
    let i ← nextIndex
    if i < (← get).program.globals.size then
      modify fun m => { m with program := m.program.setGlobal i v }
      return .next
    else fail (.malformed (.globalRange i))
  | .iload => do
    let v ← nextValue
    let name ← nextName
    match ← attribute? v name with
    | some found =>
      store found
      return .next
    | none => complain (.unknownAttribute name (← typeName v))
  | .istore => do
    let v ← nextValue
    let new ← nextValue
    let name ← nextName
    if ← setAttribute v name new then return .next
    else complain (.cannotAssign name (← typeName v))
  | .feGenusStore => storeGuard (·.essences.length) Form.setEssenceGuard
  | .fmGenusStore => storeGuard (·.matter.length) Form.setMatterGuard

/-- Runs the next instruction of the frame on top. Running off the end returns ni. -/
def step : Run Flow := do
  let (ip, ended) ← onFrame fun f => return ((f.ip, f.atEnd), f)
  if ended then return .done .ni
  else
    let w ← nextWord
    match Opcode.ofWord? w with
    | none => fail (.unknownOpcode w ip)
    | some opcode => execute opcode

/-- Resumes the frame on top at a handler it installed, with the exception in the handler's
register. The throw goes on if the newest handler is another frame's. -/
def resume : Run Unit := do
  let m ← get
  match m.handlers.catchIn? (m.frameDepth - 1) with
  | none => throw .thrown
  | some (handler, handlers) =>
    let (exception, handlers) := handlers.takeException
    set { m with handlers }
    setRegister handler.register exception
    jump handler.resume

/-- Takes one instruction off the budget; an empty budget halts the machine. -/
def fetch : Run Unit := fun _ m =>
  match m.budget with
  | 0 => .error .halted m
  | budget + 1 => .ok () { m with budget }

def loop : Nat → Run Value
  | 0 => throw .halted
  | rounds + 1 => fun env m =>
    match (fetch >>= fun _ => step) env m with
    | .ok .next m => loop rounds env m
    | .ok (.done v) m => .ok v m
    | .error .thrown m =>
      match resume env m with
      | .ok _ m => loop rounds env m
      | .error unwind m => .error unwind m
    | .error unwind m => .error unwind m

/-- Runs the frame on top from an entry point until it returns. Every round takes an instruction
off the budget, so the budget bounds the rounds. -/
def evaluate (start : Nat) : Run Value := do
  jump start
  loop ((← get).budget + 1)

end Run

namespace Machine

/-- Calls a value, with at most so many calls inside each other. -/
def callAt : Nat → Value → Arguments → EStateM Unwind Machine Value
  | 0, _, _ => throw (.fatal .tooDeep)
  | depth + 1, callee, args =>
    (Run.callValue Run.evaluate callee args).run { call := callAt depth, depth }

end Machine

end JourneyMachine
