import JourneyMachine.Code.Assembler
import JourneyMachine.Proofs.Code.Encoding

namespace JourneyMachine

namespace Assembler

abbrev Symbol := Word ⊕ Label

/-- An operand as it is asked for. -/
inductive Request where
  | operand (operand : Operand)
  | target (label : Label)

/-- An instruction as it is asked for, with the position the assembler had. -/
structure Draft where
  ip : Nat
  operation : Operation
  requests : List Request

structure Order where
  drafts : List Draft := []
  constants : List (Value × Word) := []
  registers : List Word := []
  labels : List Label := []
  bindings : List (Label × Nat) := []

namespace Request

def kind : Request → OperandKind
  | operand o => o.kind
  | target _ => .position

def symbols : Request → List Symbol
  | operand o => o.words.map .inl
  | target l => [.inr l]

def constants : Request → List (Value × Word)
  | operand o => o.constants
  | target _ => []

def resolve (place : Label → Word) : Request → Operand
  | operand o => o
  | target l => .position (place l)

end Request

namespace Draft

def symbols (d : Draft) : List Symbol :=
  d.operation.words.map .inl ++ d.requests.flatMap Request.symbols

def constants (d : Draft) : List (Value × Word) := d.requests.flatMap Request.constants

def resolve (place : Label → Word) (d : Draft) : Instruction where
  ip := d.ip
  operation := d.operation
  operands := d.requests.map (·.resolve place)
  next := d.ip + d.symbols.length

end Draft

def labelsOf (symbols : List Symbol) : List Label := symbols.filterMap Sum.getRight?

namespace Order

variable (o : Order)

def symbols : List Symbol := o.drafts.flatMap Draft.symbols

def references : List Label := labelsOf o.symbols

def position? (l : Label) : Option Nat := (o.bindings.filter (·.1 = l)).getLast?.map (·.2)

def place (l : Label) : Word := UInt32.ofNat ((o.position? l).getD 0)

def emit (ip : Nat) (operation : Operation) (requests : List Request) : Order :=
  { o with drafts := o.drafts ++ [⟨ip, operation, requests⟩] }

def allot (register : Word) : Order := { o with registers := o.registers ++ [register] }

def pool (value : Value) (index : Word) : Order :=
  { o with constants := o.constants ++ [(value, index)] }

/-- Words follow a layout: they spell operands of its kinds, whose constants were handed out. -/
structure Follows (kinds : List OperandKind) (words : List Word) (operands : List Operand) :
    Prop where
  kinds : operands.map Operand.kind = kinds
  words : operands.flatMap Operand.words = words
  constants : ∀ c ∈ operands.flatMap Operand.constants, c ∈ o.constants

end Order

/-- An assembler after some calls, with what they have asked for. Labels are those handed out
before, operand words follow the layout, and services are emitted as such. -/
inductive Assembled (reserved : Nat) : Assembler → Order → Prop
  | start : Assembled reserved (withRegisters reserved) {}
  | register {a : Assembler} {o : Order} : Assembled reserved a o →
      Assembled reserved a.register.2 (o.allot a.register.1)
  | constant {a : Assembler} {o : Order} (value : Value) : Assembled reserved a o →
      Assembled reserved (a.constant value).2 (o.pool value (a.constant value).1)
  | label {a : Assembler} {o : Order} : Assembled reserved a o →
      Assembled reserved a.label.2 { o with labels := o.labels ++ [a.label.1] }
  | bind {a : Assembler} {o : Order} {l : Label} : Assembled reserved a o → l ∈ o.labels →
      Assembled reserved (a.bind l) { o with bindings := o.bindings ++ [(l, a.position)] }
  | op {a : Assembler} {o : Order} {opcode : Opcode} {words : List Word}
      {operands : List Operand} : Assembled reserved a o → opcode ≠ .int →
      o.Follows opcode.layout words operands →
      Assembled reserved (a.op opcode words)
        (o.emit a.position (.opcode opcode) (operands.map .operand))
  | interrupt {a : Assembler} {o : Order} {service : Interrupt} {words : List Word}
      {operands : List Operand} : Assembled reserved a o →
      o.Follows service.layout words operands →
      Assembled reserved (a.interrupt service words)
        (o.emit a.position (.interrupt service) (operands.map .operand))
  | jump {a : Assembler} {o : Order} {l : Label} : Assembled reserved a o → l ∈ o.labels →
      Assembled reserved (a.jump l) (o.emit a.position (.opcode .jmp) [.target l])
  | jumpIf {a : Assembler} {o : Order} {l : Label} (r : Word) (sense : Bool) :
      Assembled reserved a o → l ∈ o.labels →
      Assembled reserved (a.jumpIf r sense l)
        (o.emit a.position (.opcode (if sense then .jmpTrue else .jmpFalse))
          [.operand (.register r), .target l])
  | tryCatch {a : Assembler} {o : Order} {l : Label} (r : Word) :
      Assembled reserved a o → l ∈ o.labels →
      Assembled reserved (a.tryCatch l r)
        (o.emit a.position (.opcode .tryCatch) [.target l, .operand (.register r)])
  | load {a : Assembler} {o : Order} (value : Value) : Assembled reserved a o →
      Assembled reserved (a.load value).2
        (((o.pool value (a.constant value).1).allot (a.load value).1).emit a.position
          (.opcode .cload) [.operand (.constant (a.constant value).1 value),
            .operand (.register (a.load value).1)])
  | loadGlobal {a : Assembler} {o : Order} (index : Word) : Assembled reserved a o →
      Assembled reserved (a.loadGlobal index).2
        ((o.allot (a.loadGlobal index).1).emit a.position (.opcode .gload)
          [.operand (.global index), .operand (.register (a.loadGlobal index).1)])
  | binary {a : Assembler} {o : Order} {opcode : Opcode} {lhs rhs : Word}
      {operands : List Operand} : Assembled reserved a o → opcode ≠ .int →
      o.Follows opcode.layout [lhs, rhs, (a.binary opcode lhs rhs).1] operands →
      Assembled reserved (a.binary opcode lhs rhs).2
        ((o.allot (a.binary opcode lhs rhs).1).emit a.position (.opcode opcode)
          (operands.map .operand))
  | call {a : Assembler} {o : Order} (callee : Word) (args : List Word) :
      Assembled reserved a o →
      Assembled reserved (a.call callee args).2
        ((o.allot (a.call callee args).1).emit a.position (.opcode .call)
          [.operand (.register callee), .operand (.registers args),
            .operand (.register (a.call callee args).1)])
  | callKw {a : Assembler} {o : Order} (callee : Word) (args : List Word)
      (entries : List ((Word × Value) × Word)) :
      Assembled reserved a o → (∀ e ∈ entries, (e.1.2, e.1.1) ∈ o.constants) →
      Assembled reserved (a.callKw callee args (entries.map fun e => (e.1.1, e.2))).2
        ((o.allot a.register.1).emit a.position (.opcode .callKw)
          [.operand (.register callee), .operand (.registers args), .operand (.keywords entries),
            .operand (.register a.register.1)])
  | ret {a : Assembler} {o : Order} (r : Word) : Assembled reserved a o →
      Assembled reserved (a.ret r)
        (o.emit a.position (.opcode .ret) [.operand (.register r)])

section Symbols

/-- A word that awaits its label. -/
def hole : Word := 0xffffffff

def spell (place : Label → Word) (symbols : List Symbol) : List Word :=
  symbols.map (Sum.elim id place)

def fixupsFrom : Nat → List Symbol → List (Nat × Label)
  | _, [] => []
  | ip, .inl _ :: rest => fixupsFrom (ip + 1) rest
  | ip, .inr l :: rest => (ip, l) :: fixupsFrom (ip + 1) rest

def write (a : Assembler) (symbols : List Symbol) : Assembler :=
  { a with
    code := a.code ++ spell (fun _ => hole) symbols
    fixups := a.fixups ++ fixupsFrom a.code.size symbols }

variable {a : Assembler} {xs ys : List Symbol} {place : Label → Word}

theorem spell_append : spell place (xs ++ ys) = spell place xs ++ spell place ys :=
  List.map_append

theorem spell_inl (words : List Word) : spell place (words.map .inl) = words := by
  simp [spell]

theorem fixupsFrom_append (ip : Nat) :
    fixupsFrom ip (xs ++ ys) = fixupsFrom ip xs ++ fixupsFrom (ip + xs.length) ys := by
  induction xs generalizing ip with
  | nil => rfl
  | cons x xs ih =>
    have shift : ip + 1 + xs.length = ip + (x :: xs).length := by
      simp only [List.length_cons]
      omega
    cases x <;> simp [fixupsFrom, ih, shift]

theorem fixupsFrom_inl (ip : Nat) (words : List Word) : fixupsFrom ip (words.map .inl) = [] := by
  induction words generalizing ip with
  | nil => rfl
  | cons w words ih => exact ih (ip + 1)

theorem write_append : (a.write xs).write ys = a.write (xs ++ ys) := by
  have code : a.code ++ spell (fun _ => hole) xs ++ spell (fun _ => hole) ys =
      a.code ++ spell (fun _ => hole) (xs ++ ys) := by
    apply Array.toList_inj.mp
    simp [spell_append]
  have size : (a.code ++ spell (fun _ => hole) xs).size = a.code.size + xs.length := by
    rw [← Array.length_toList]
    simp [spell]
  simp only [write, code, size, fixupsFrom_append, List.append_assoc]

theorem emit_eq_write (words : List Word) : a.emit words = a.write (words.map .inl) := by
  simp only [emit, write, spell_inl, fixupsFrom_inl, List.append_nil]

theorem target_eq_write (l : Label) : a.target l = a.write [.inr l] := by
  simp [target, write, spell, fixupsFrom, position, hole]

theorem labelsOf_append : labelsOf (xs ++ ys) = labelsOf xs ++ labelsOf ys :=
  List.filterMap_append

theorem labelsOf_inl (words : List Word) : labelsOf (words.map .inl) = [] := by
  simp [labelsOf]

theorem symbols_operands (operands : List Operand) :
    (operands.map Request.operand).flatMap Request.symbols =
      (operands.flatMap Operand.words).map .inl := by
  simp [List.flatMap_map, List.map_flatMap, Request.symbols]

end Symbols

section Emission

variable (a : Assembler) (ip : Nat) (l : Label) (r : Word)

theorem op_eq_write (opcode : Opcode) (operands : List Operand) :
    a.op opcode (operands.flatMap Operand.words) =
      a.write (Draft.symbols ⟨ip, .opcode opcode, operands.map .operand⟩) := by
  rw [op, emit_eq_write, Draft.symbols, symbols_operands]
  rfl

theorem interrupt_eq_write (service : Interrupt) (operands : List Operand) :
    a.interrupt service (operands.flatMap Operand.words) =
      a.write (Draft.symbols ⟨ip, .interrupt service, operands.map .operand⟩) := by
  rw [interrupt, emit_eq_write, Draft.symbols, symbols_operands]
  rfl

theorem jump_eq_write :
    a.jump l = a.write (Draft.symbols ⟨ip, .opcode .jmp, [.target l]⟩) := by
  rw [jump, emit_eq_write, target_eq_write, write_append]
  rfl

theorem jumpIf_eq_write (sense : Bool) :
    a.jumpIf r sense l =
      a.write (Draft.symbols ⟨ip, .opcode (if sense then .jmpTrue else .jmpFalse),
        [.operand (.register r), .target l]⟩) := by
  rw [jumpIf, emit_eq_write, target_eq_write, write_append]
  rfl

theorem tryCatch_eq_write :
    a.tryCatch l r = a.write (Draft.symbols ⟨ip, .opcode .tryCatch,
      [.target l, .operand (.register r)]⟩) := by
  rw [tryCatch, emit_eq_write, target_eq_write, emit_eq_write, write_append, write_append]
  rfl

end Emission

end Assembler

end JourneyMachine
