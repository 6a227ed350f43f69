import JourneyMachine.Code.Opcode

namespace JourneyMachine

/-- A service reached through `INT`. -/
inductive Interrupt where
  | toNumeral
  | toText
  | toVeracity
  | toBook
  | toCodex
  | kindof
  | length
  | arabic
  | roman
  | print
  | println
  | dump
  | system
  | exit
  | ascii
  | prompt
  | random
  | codexNew
  | bookNew
  | substr
  | arrayInsert
  | arrayDelete
  | babel
  | fopen
deriving DecidableEq, Repr

namespace Interrupt

def all : List Interrupt :=
  [.toNumeral, .toText, .toVeracity, .toBook, .toCodex, .kindof, .length, .arabic, .roman, .print,
   .println, .dump, .system, .exit, .ascii, .prompt, .random, .codexNew, .bookNew, .substr,
   .arrayInsert, .arrayDelete, .babel, .fopen]

/-- The number of registers read up front, and the identifier among those of that number. -/
def key : Interrupt → Nat × Nat
  | .toNumeral => (1, 1)
  | .toText => (1, 2)
  | .toVeracity => (1, 3)
  | .toBook => (1, 4)
  | .toCodex => (1, 5)
  | .kindof => (1, 6)
  | .length => (1, 7)
  | .arabic => (1, 8)
  | .roman => (1, 9)
  | .print => (1, 10)
  | .println => (1, 11)
  | .dump => (1, 12)
  | .system => (1, 13)
  | .exit => (1, 14)
  | .ascii => (1, 16)
  | .prompt => (0, 0)
  | .random => (0, 1)
  | .codexNew => (0, 2)
  | .bookNew => (0, 3)
  | .substr => (3, 0)
  | .arrayInsert => (3, 1)
  | .arrayDelete => (2, 0)
  | .babel => (2, 2)
  | .fopen => (2, 3)

def arity (x : Interrupt) : Nat := x.key.1

def word (x : Interrupt) : Word := packWord x.key.1 x.key.2

def mnemonic : Interrupt → String
  | .toNumeral => "TONUMERAL"
  | .toText => "TOTEXT"
  | .toVeracity => "TOVERACITY"
  | .toBook => "TOBOOK"
  | .toCodex => "TOCODEX"
  | .kindof => "KINDOF"
  | .length => "LENGTH"
  | .arabic => "ARABIC"
  | .roman => "ROMAN"
  | .print => "PRINT"
  | .println => "PRINTLN"
  | .dump => "DUMP"
  | .system => "SYSTEM"
  | .exit => "EXIT"
  | .ascii => "ASCII"
  | .prompt => "PROMPT"
  | .random => "RANDOM"
  | .codexNew => "CODEX_NEW"
  | .bookNew => "BOOK_NEW"
  | .substr => "SUBSTR"
  | .arrayInsert => "ARRAY_INSERT"
  | .arrayDelete => "ARRAY_DELETE"
  | .babel => "BABEL"
  | .fopen => "FOPEN"

/-- The members by word, for the words that are assigned at all. -/
def table : Array (Option Interrupt) :=
  (Array.range 128).map fun w => all.find? fun x => x.word.toNat == w

def ofWord? (w : Word) : Option Interrupt :=
  table[w.toNat]?.join

def ofMnemonic? (name : String) : Option Interrupt :=
  all.find? fun x => x.mnemonic == name

end Interrupt

end JourneyMachine
