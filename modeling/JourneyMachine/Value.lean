import JourneyMachine.Genus

namespace JourneyMachine

/-- The number of a heap slot. In a heap of up to `2 ^ 32` slots it fits into 32 bits. -/
structure Handle where
  slot : Nat
deriving DecidableEq, Repr, Inhabited

/-- Equality of values is identity: two texts of equal content in different slots are different. -/
inductive Value where
  | ni
  | veracity (truth : Bool)
  | numeral (n : Int64)
  | text (handle : Handle)
  | form (handle : Handle)
  | imitation (handle : Handle)
  | journey (handle : Handle)
  | book (handle : Handle)
  | codex (handle : Handle)
  | other (handle : Handle)
deriving DecidableEq, Repr, Inhabited

namespace Value

def genus : Value → Genus
  | ni => .ni
  | veracity _ => .veracity
  | numeral _ => .numeral
  | text _ => .text
  | form _ => .form
  | imitation _ => .imitation
  | journey _ => .journey
  | book _ => .book
  | codex _ => .codex
  | other _ => .other

def handle? : Value → Option Handle
  | ni | veracity _ | numeral _ => none
  | text h | form h | imitation h | journey h | book h | codex h | other h => some h

/-- The heap value of that genus around a handle; none for the inline genera. -/
def ofHandle? (genus : Genus) (h : Handle) : Option Value :=
  match genus with
  | .ni | .veracity | .numeral => none
  | .text => some (text h)
  | .form => some (form h)
  | .imitation => some (imitation h)
  | .journey => some (journey h)
  | .book => some (book h)
  | .codex => some (codex h)
  | .other => some (other h)

theorem handle?_isSome (v : Value) : v.handle?.isSome = v.genus.inHeap := by
  cases v <;> rfl

theorem ofHandle?_eq_some_iff {genus : Genus} {h : Handle} {v : Value} :
    ofHandle? genus h = some v ↔ v.genus = genus ∧ v.handle? = some h := by
  cases genus <;> cases v <;> simp [ofHandle?, Value.genus, handle?, eq_comm]

end Value

end JourneyMachine
