import JourneyMachine.Heap.Dump
import JourneyMachine.Heap.Hierarchy
import JourneyMachine.Machine.Basic

namespace JourneyMachine.Run

def typeName (v : Value) : Run String := onHeap (·.typeName v)

def changeOf? (v : Value) (name : String) : Run (Option Handle) := onHeap (·.changeOf? v name)

def callChange? (receiver : Value) (name : String) (args : List Value) : Run (Option Value) := do
  match ← changeOf? receiver name with
  | some change => return some (← call (.journey change) args)
  | none => return none

/-- Converts an imitation by a change whose result must have the expected genus. -/
def convertBy? (v : Value) (change : String) (expected : Genus) : Run (Option Value) := do
  match ← callChange? v change [v] with
  | none => return none
  | some result =>
    if result.genus = expected then return some result
    else complain (.conversion change (← typeName v) expected)

def cannotConvert {α : Type} (v : Value) (target : String) : Run α := do
  complain (.cannotConvert (← typeName v) target)

/-- The text of a value. `path` holds the handles of the containers around it, each a slot of its
own; once `room` of them are left out no further slot can be in use. -/
def textWithin : Nat → List Handle → Value → Run String
  | room, path, v =>
    match v with
    | .ni => return "ni"
    | .veracity truth => return if truth then "yea" else "nay"
    | .numeral n => return Numeral.arabic n
    | .text h => text h
    | .form h => return (← form h).name
    | .other h => return (← other h).describe
    | .book h =>
      if h ∈ path then return "[...]"
      else
        match room with
        | 0 => fail (.dangling h.slot)
        | room + 1 => do
          let pages := (← book h).toList
          let parts ← withPinned pages (pages.mapM (textWithin room (h :: path)))
          return "[" ++ ", ".intercalate parts ++ "]"
    | .codex h =>
      if h ∈ path then return "\x7b...\x7d"
      else
        match room with
        | 0 => fail (.dangling h.slot)
        | room + 1 => do
          let entries ← codex h
          let parts ← withPinned (entries.flatMap fun (k, v) => [k, v])
            (entries.mapM fun (k, v) => do
              let key ← textWithin room (h :: path) k
              let value ← textWithin room (h :: path) v
              return s!"{key}: {value}")
          return "\x7b" ++ ", ".intercalate parts ++ "\x7d"
    | .imitation _ => do
      match ← convertBy? v "to_text" .text with
      | some result => text (← ofExcept (result.expectHandle .text))
      | none => cannotConvert v "text"
    | .journey _ => cannotConvert v "text"

def toText (v : Value) : Run String := do
  textWithin (← get).heap.capacity [] v

def toTextValue (v : Value) : Run Value :=
  match v with
  | .text _ => return v
  | _ => do newText (← toText v)

def toNumeral (v : Value) : Run Int64 :=
  match v with
  | .ni => return 0
  | .veracity truth => return if truth then 1 else 0
  | .numeral n => return n
  | .text h => return Numeral.parse (← text h)
  | .book h => return Int64.ofNat (← book h).size
  | .codex h => return Int64.ofNat (← codex h).length
  | .imitation _ => do
    match ← convertBy? v "to_numeral" .numeral with
    | some result => ofExcept result.expectNumeral
    | none => cannotConvert v "numeral"
  | .form _ | .journey _ | .other _ => cannotConvert v "numeral"

def toVeracity (v : Value) : Run Bool :=
  match v with
  | .ni => return false
  | .veracity truth => return truth
  | .numeral n => return n ≠ 0
  | .text h => return (← text h) ≠ ""
  | .book h => return (← book h).size ≠ 0
  | .codex h => return (← codex h).length ≠ 0
  | .imitation _ => do
    match ← convertBy? v "to_veracity" .veracity with
    | some result => return result = .veracity true
    | none => cannotConvert v "veracity"
  | .form _ | .journey _ | .other _ => cannotConvert v "veracity"

/-- The number of characters of a text, pages of a book, or entries of a codex. -/
def length (v : Value) : Run Int64 :=
  match v with
  | .text h => return Int64.ofNat (← text h).length
  | .book h => return Int64.ofNat (← book h).size
  | .codex h => return Int64.ofNat (← codex h).length
  | .imitation _ => do
    match ← convertBy? v "length" .numeral with
    | some result => ofExcept result.expectNumeral
    | none => complain (.noLength (← typeName v))
  | _ => do complain (.noLength (← typeName v))

/-- The form of an imitation; otherwise the name of the genus as a text. -/
def genusOf (v : Value) : Run Value :=
  match v with
  | .imitation h => return .form (← imitation h).form
  | .other h => do newText (if (← get).heap.isScroll h then "Scroll" else Genus.other.name)
  | v => newText v.genus.name

end JourneyMachine.Run
