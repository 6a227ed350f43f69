import JourneyMachine.Code.Interrupt
import JourneyMachine.Code.Opcode
import JourneyMachine.Fault

/-!
# Decoded instructions

`Operation.layout` says how the operand words of each instruction are read, and
`Codeblock.instructionAt` decodes the instruction at a position without running it. A decoded
instruction knows how many words it takes, so `Codeblock.instructions` lists a whole block.
-/

namespace JourneyMachine

/-- The compiled code of one pattern. -/
structure Codeblock where
  registers : Nat := 0
  constants : Array Value := #[]
  code : Array Word := #[]
deriving DecidableEq, Repr, Inhabited

namespace Codeblock

def word (block : Codeblock) (ip : Nat) : Except Fault Word :=
  match block.code[ip]? with
  | some w => .ok w
  | none => .error (.malformed (.streamEnds ip))

def constant (block : Codeblock) (index : Word) : Except Fault Value :=
  match block.constants[index.toNat]? with
  | some v => .ok v
  | none => .error (.malformed (.constantRange index.toNat))

end Codeblock

/-- How operand words are read. -/
inductive OperandKind where
  | register
  | constant
  | position
  | global
  | field
  /-- A count, then that many registers. -/
  | registers
  /-- A count, then that many pairs of registers. -/
  | pairs
  /-- A count, then that many pairs of a constant and a register. -/
  | keywords
deriving DecidableEq, Repr

inductive Operand where
  | register (index : Word)
  | constant (index : Word) (value : Value)
  | position (target : Word)
  | global (index : Word)
  | field (index : Word)
  | registers (indices : List Word)
  | pairs (entries : List (Word × Word))
  | keywords (entries : List ((Word × Value) × Word))
deriving DecidableEq, Repr

/-- What an instruction does: an opcode, or a service behind `INT`. -/
inductive Operation where
  | opcode (opcode : Opcode)
  | interrupt (interrupt : Interrupt)
deriving DecidableEq, Repr

namespace Opcode

/-- The operands of an opcode other than `INT`, which has those of its service. -/
def layout : Opcode → List OperandKind
  | .noop | .popTryCatch | .int => []
  | .mov | .not | .neg | .patNot => [.register, .register]
  | .jmp => [.position]
  | .jmpTrue | .jmpFalse => [.register, .position]
  | .call => [.register, .registers, .register]
  | .callKw => [.register, .registers, .keywords, .register]
  | .ret | .throw => [.register]
  | .tryCatch => [.position, .register]
  | .eql | .neq | .lth | .gth | .leq | .geq | .cmp | .add | .sub | .mul | .div | .mod | .pow
  | .index | .fits | .patAnd | .patOr | .indexAssign => [.register, .register, .register]
  | .cload => [.constant, .register]
  | .gload => [.global, .register]
  | .gstore => [.register, .global]
  | .iload => [.register, .constant, .register]
  | .istore => [.register, .register, .constant]
  | .feGenusStore | .fmGenusStore => [.register, .register, .field]

end Opcode

namespace Interrupt

def layout : Interrupt → List OperandKind
  | .prompt | .random | .exit => [.register]
  | .codexNew => [.pairs, .register]
  | .bookNew => [.registers, .register]
  | .substr | .arrayInsert => [.register, .register, .register, .register]
  | .arrayDelete | .fopen => [.register, .register, .register]
  | .babel => [.register, .register, .registers, .register]
  | .toNumeral | .toText | .toVeracity | .toBook | .toCodex | .kindof | .length | .arabic | .roman
  | .print | .println | .dump | .system | .ascii => [.register, .register]

end Interrupt

namespace Operation

def layout : Operation → List OperandKind
  | opcode op => op.layout
  | interrupt service => service.layout

def mnemonic : Operation → String
  | opcode op => op.mnemonic
  | interrupt service => "INT " ++ service.mnemonic

end Operation

structure Instruction where
  ip : Nat
  operation : Operation
  operands : List Operand
  next : Nat
deriving DecidableEq, Repr

namespace Codeblock

def wordsAt (block : Codeblock) : Nat → Nat → Except Fault (List Word × Nat)
  | 0, ip => .ok ([], ip)
  | count + 1, ip => do
    let w ← block.word ip
    let (rest, next) ← block.wordsAt count (ip + 1)
    return (w :: rest, next)

def pairsAt (block : Codeblock) : Nat → Nat → Except Fault (List (Word × Word) × Nat)
  | 0, ip => .ok ([], ip)
  | count + 1, ip => do
    let a ← block.word ip
    let b ← block.word (ip + 1)
    let (rest, next) ← block.pairsAt count (ip + 2)
    return ((a, b) :: rest, next)

def keywordsAt (block : Codeblock) :
    Nat → Nat → Except Fault (List ((Word × Value) × Word) × Nat)
  | 0, ip => .ok ([], ip)
  | count + 1, ip => do
    let name ← block.word ip
    let value ← block.constant name
    let register ← block.word (ip + 1)
    let (rest, next) ← block.keywordsAt count (ip + 2)
    return (((name, value), register) :: rest, next)

/-- Reads one operand and returns it with the position after it. -/
def operandAt (block : Codeblock) (kind : OperandKind) (ip : Nat) :
    Except Fault (Operand × Nat) := do
  let w ← block.word ip
  match kind with
  | .register => return (.register w, ip + 1)
  | .constant => return (.constant w (← block.constant w), ip + 1)
  | .position => return (.position w, ip + 1)
  | .global => return (.global w, ip + 1)
  | .field => return (.field w, ip + 1)
  | .registers =>
    let (indices, next) ← block.wordsAt w.toNat (ip + 1)
    return (.registers indices, next)
  | .pairs =>
    let (entries, next) ← block.pairsAt w.toNat (ip + 1)
    return (.pairs entries, next)
  | .keywords =>
    let (entries, next) ← block.keywordsAt w.toNat (ip + 1)
    return (.keywords entries, next)

def operandsAt (block : Codeblock) :
    List OperandKind → Nat → Except Fault (List Operand × Nat)
  | [], ip => .ok ([], ip)
  | kind :: kinds, ip => do
    let (operand, next) ← block.operandAt kind ip
    let (operands, last) ← block.operandsAt kinds next
    return (operand :: operands, last)

/-- Reads what the instruction at a position does, with the position of its first operand. -/
def operationAt (block : Codeblock) (ip : Nat) : Except Fault (Operation × Nat) := do
  let w ← block.word ip
  match Opcode.ofWord? w with
  | none => .error (.unknownOpcode w ip)
  | some .int =>
    let service ← block.word (ip + 1)
    match Interrupt.ofWord? service with
    | none => .error (.unknownInterrupt service (ip + 1))
    | some interrupt => return (.interrupt interrupt, ip + 2)
  | some op => return (.opcode op, ip + 1)

def instructionAt (block : Codeblock) (ip : Nat) : Except Fault Instruction := do
  let (operation, first) ← block.operationAt ip
  let (operands, next) ← block.operandsAt operation.layout first
  return { ip, operation, operands, next }

/-- Decodes instructions from a position to the end of the code, at most `room` of them. Every
instruction takes a word at least, so the length of the code is room enough. -/
def instructionsFrom (block : Codeblock) : Nat → Nat → Except Fault (List Instruction)
  | 0, _ => .ok []
  | room + 1, ip =>
    if ip < block.code.size then do
      let instruction ← block.instructionAt ip
      let rest ← block.instructionsFrom room instruction.next
      return instruction :: rest
    else .ok []

def instructions (block : Codeblock) : Except Fault (List Instruction) :=
  block.instructionsFrom block.code.size 0

end Codeblock

end JourneyMachine
