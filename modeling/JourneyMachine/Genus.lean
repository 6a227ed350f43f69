namespace JourneyMachine

inductive Genus where
  | ni
  | veracity
  | numeral
  | text
  | form
  | imitation
  | journey
  | book
  | codex
  | other
deriving DecidableEq, Repr, Inhabited

namespace Genus

def all : List Genus :=
  [ni, veracity, numeral, text, form, imitation, journey, book, codex, other]

/-- The name programs use for a genus. -/
def name : Genus → String
  | ni => "Ni"
  | veracity => "Veracity"
  | numeral => "Numeral"
  | text => "Text"
  | form => "Form"
  | imitation => "Imitation"
  | journey => "Journey"
  | book => "Book"
  | codex => "Codex"
  | other => "Other"

def ofName? (name : String) : Option Genus :=
  all.find? fun genus => genus.name == name

def inHeap : Genus → Bool
  | ni | veracity | numeral => false
  | text | form | imitation | journey | book | codex | other => true

theorem mem_all (genus : Genus) : genus ∈ all := by
  cases genus <;> decide

theorem name_injective {a b : Genus} (same : a.name = b.name) : a = b := by
  cases a <;> cases b <;> first | rfl | exact absurd same (by decide)

theorem ofName?_name (genus : Genus) : ofName? genus.name = some genus := by
  cases genus <;> decide

end Genus

end JourneyMachine
