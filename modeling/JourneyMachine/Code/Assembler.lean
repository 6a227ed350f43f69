import JourneyMachine.Code.Instruction

/-!
# Assembler

Builds a codeblock call by call: registers and constants are handed out as they are asked for, and
jumps refer to labels that may be bound later. Equal constants share one place in the pool.
-/

namespace JourneyMachine

/-- A jump target, by creation order. -/
structure Label where
  index : Nat
deriving DecidableEq, Repr

/-- A codeblock under construction. `fixups` are the positions that await a label. -/
structure Assembler where
  code : Array Word := #[]
  constants : Array Value := #[]
  registers : Nat := 0
  labels : Array (Option Nat) := #[]
  fixups : List (Nat × Label) := []
deriving Repr

namespace Assembler

def withRegisters (count : Nat) : Assembler := { registers := count }

def register (a : Assembler) : Word × Assembler :=
  (UInt32.ofNat a.registers, { a with registers := a.registers + 1 })

/-- The place of a constant in the pool, which is extended if the constant is new. -/
def constant (a : Assembler) (value : Value) : Word × Assembler :=
  match a.constants.findIdx? (· = value) with
  | some index => (UInt32.ofNat index, a)
  | none => (UInt32.ofNat a.constants.size, { a with constants := a.constants.push value })

def position (a : Assembler) : Nat := a.code.size

def label (a : Assembler) : Label × Assembler :=
  (⟨a.labels.size⟩, { a with labels := a.labels.push none })

def bind (a : Assembler) (label : Label) : Assembler :=
  { a with labels := a.labels.setIfInBounds label.index (some a.position) }

def emit (a : Assembler) (words : List Word) : Assembler :=
  { a with code := a.code ++ words }

def target (a : Assembler) (label : Label) : Assembler :=
  { a with
    fixups := a.fixups ++ [(a.position, label)]
    code := a.code.push (0xffffffff) }

def op (a : Assembler) (opcode : Opcode) (operands : List Word) : Assembler :=
  a.emit (opcode.word :: operands)

def interrupt (a : Assembler) (service : Interrupt) (operands : List Word) : Assembler :=
  a.emit (Opcode.int.word :: service.word :: operands)

def jump (a : Assembler) (label : Label) : Assembler :=
  (a.emit [Opcode.jmp.word]).target label

def jumpIf (a : Assembler) (register : Word) (sense : Bool) (label : Label) : Assembler :=
  (a.emit [(if sense then Opcode.jmpTrue else Opcode.jmpFalse).word, register]).target label

def tryCatch (a : Assembler) (label : Label) (register : Word) : Assembler :=
  ((a.emit [Opcode.tryCatch.word]).target label).emit [register]

def load (a : Assembler) (value : Value) : Word × Assembler :=
  let (index, a) := a.constant value
  let (dst, a) := a.register
  (dst, a.op .cload [index, dst])

def loadGlobal (a : Assembler) (global : Word) : Word × Assembler :=
  let (dst, a) := a.register
  (dst, a.op .gload [global, dst])

def binary (a : Assembler) (opcode : Opcode) (lhs rhs : Word) : Word × Assembler :=
  let (dst, a) := a.register
  (dst, a.op opcode [lhs, rhs, dst])

def call (a : Assembler) (callee : Word) (args : List Word) : Word × Assembler :=
  let (dst, a) := a.register
  (dst, a.op .call (callee :: UInt32.ofNat args.length :: (args ++ [dst])))

/-- Emits a call with keywords, given as constant and register, into a fresh register. -/
def callKw (a : Assembler) (callee : Word) (args : List Word) (keywords : List (Word × Word)) :
    Word × Assembler :=
  let (dst, a) := a.register
  (dst, a.op .callKw (callee :: UInt32.ofNat args.length ::
    (args ++ UInt32.ofNat keywords.length :: (keywords.flatMap fun (k, r) => [k, r]) ++ [dst])))

def ret (a : Assembler) (register : Word) : Assembler :=
  a.op .ret [register]

/-- Writes the positions of the labels into the words that await them. -/
def resolve (labels : Array (Option Nat)) :
    List (Nat × Label) → Array Word → Except Fault (Array Word)
  | [], code => .ok code
  | (place, label) :: rest, code =>
    match labels[label.index]?.join with
    | none => .error (.malformed (.labelUnbound label.index))
    | some target => resolve labels rest (code.setIfInBounds place (UInt32.ofNat target))

/-- Resolves the labels and produces the codeblock; a label that is used must be bound. -/
def finish (a : Assembler) : Except Fault Codeblock := do
  let code ← resolve a.labels a.fixups a.code
  return { registers := a.registers, constants := a.constants, code }

end Assembler

end JourneyMachine
