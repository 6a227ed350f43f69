namespace JourneyMachine

abbrev Word := UInt32

/-- The word with the given number of leading registers and identifier. -/
def packWord (arity id : Nat) : Word :=
  UInt32.ofNat (id * 4 + arity)

inductive Opcode where
  | noop
  | mov
  | int
  | jmp
  | jmpTrue
  | jmpFalse
  | call
  | callKw
  | ret
  | tryCatch
  | throw
  | popTryCatch
  | not
  | neg
  | eql
  | neq
  | lth
  | gth
  | leq
  | geq
  | cmp
  | add
  | sub
  | mul
  | div
  | mod
  | pow
  | index
  | indexAssign
  | fits
  | patAnd
  | patOr
  | patNot
  | cload
  | gload
  | gstore
  | iload
  | istore
  | feGenusStore
  | fmGenusStore
deriving DecidableEq, Repr

namespace Opcode

def all : List Opcode :=
  [.noop, .mov, .int, .jmp, .jmpTrue, .jmpFalse, .call, .callKw, .ret, .tryCatch, .throw,
   .popTryCatch, .not, .neg, .eql, .neq, .lth, .gth, .leq, .geq, .cmp, .add, .sub, .mul, .div,
   .mod, .pow, .index, .indexAssign, .fits, .patAnd, .patOr, .patNot, .cload, .gload, .gstore,
   .iload, .istore, .feGenusStore, .fmGenusStore]

/-- The number of registers read up front, and the identifier among those of that number. -/
def key : Opcode → Nat × Nat
  | .noop => (0, 1)
  | .mov => (1, 0)
  | .int => (0, 2)
  | .jmp => (0, 3)
  | .jmpTrue => (1, 1)
  | .jmpFalse => (1, 2)
  | .call => (1, 4)
  | .callKw => (1, 5)
  | .ret => (1, 7)
  | .tryCatch => (0, 5)
  | .throw => (1, 8)
  | .popTryCatch => (0, 6)
  | .not => (1, 10)
  | .neg => (1, 11)
  | .eql => (2, 0)
  | .neq => (2, 1)
  | .lth => (2, 2)
  | .gth => (2, 3)
  | .leq => (2, 4)
  | .geq => (2, 5)
  | .cmp => (2, 6)
  | .add => (2, 7)
  | .sub => (2, 8)
  | .mul => (2, 9)
  | .div => (2, 10)
  | .mod => (2, 11)
  | .pow => (2, 12)
  | .index => (2, 13)
  | .indexAssign => (3, 0)
  | .fits => (2, 14)
  | .patAnd => (2, 15)
  | .patOr => (2, 16)
  | .patNot => (1, 9)
  | .cload => (0, 9)
  | .gload => (0, 10)
  | .gstore => (1, 12)
  | .iload => (1, 6)
  | .istore => (2, 17)
  | .feGenusStore => (2, 18)
  | .fmGenusStore => (2, 19)

def arity (x : Opcode) : Nat := x.key.1

def word (x : Opcode) : Word := packWord x.key.1 x.key.2

def mnemonic : Opcode → String
  | .noop => "NOOP"
  | .mov => "MOV"
  | .int => "INT"
  | .jmp => "JMP"
  | .jmpTrue => "JMP_TRUE"
  | .jmpFalse => "JMP_FALSE"
  | .call => "CALL"
  | .callKw => "CALL_KW"
  | .ret => "RETURN"
  | .tryCatch => "TRYCATCH"
  | .throw => "THROW"
  | .popTryCatch => "POPTRYCATCH"
  | .not => "NOT"
  | .neg => "NEG"
  | .eql => "EQL"
  | .neq => "NEQ"
  | .lth => "LTH"
  | .gth => "GTH"
  | .leq => "LEQ"
  | .geq => "GEQ"
  | .cmp => "CMP"
  | .add => "ADD"
  | .sub => "SUB"
  | .mul => "MUL"
  | .div => "DIV"
  | .mod => "MOD"
  | .pow => "POW"
  | .index => "INDEX"
  | .indexAssign => "INDEX_ASSIGN"
  | .fits => "MATCHES"
  | .patAnd => "PAT_AND"
  | .patOr => "PAT_OR"
  | .patNot => "PAT_NOT"
  | .cload => "CLOAD"
  | .gload => "GLOAD"
  | .gstore => "GSTORE"
  | .iload => "ILOAD"
  | .istore => "ISTORE"
  | .feGenusStore => "FEGENUS_STORE"
  | .fmGenusStore => "FMGENUS_STORE"

/-- The members by word, for the words that are assigned at all. -/
def table : Array (Option Opcode) :=
  (Array.range 128).map fun w => all.find? fun x => x.word.toNat == w

def ofWord? (w : Word) : Option Opcode :=
  table[w.toNat]?.join

def ofMnemonic? (name : String) : Option Opcode :=
  all.find? fun x => x.mnemonic == name

end Opcode

end JourneyMachine
