import JourneyMachine.Machine.Convert

/-!
# Equality and codices

Scalars are equal by value, texts by content, books page by page and codices key by key; an
imitation on the left decides by its `==` change, and everything else is equal by identity. A pair
of containers that is being compared already counts as equal. A codex keeps its keys in the order
in which they were first stored, and finds a key by equality.
-/

namespace JourneyMachine.Run

/-- The first entry whose key the test finds equal to the given key, with its position. -/
def findKey? (equal : Value → Value → Run Bool) (key : Value) :
    Nat → List (Value × Value) → Run (Option (Nat × Value))
  | _, [] => return none
  | position, (existing, value) :: rest => do
    if ← equal existing key then return some (position, value)
    else findKey? equal key (position + 1) rest

/-- Looks a key up in a codex. The entries are those at the start of the search. -/
def searchCodex (equal : Value → Value → Run Bool) (h : Handle) (key : Value) :
    Run (Option (Nat × Value)) := do
  let entries ← codex h
  withPinned ((entries.flatMap fun (k, v) => [k, v]) ++ [key]) (findKey? equal key 0 entries)

def equalPages (equal : Value → Value → Run Bool) : List (Value × Value) → Run Bool
  | [] => return true
  | (a, b) :: rest => do
    if ← equal a b then equalPages equal rest else return false

def equalEntries (equal : Value → Value → Run Bool) (lookup : Value → Run (Option (Nat × Value))) :
    List (Value × Value) → Run Bool
  | [] => return true
  | (key, value) :: rest => do
    match ← lookup key with
    | none => return false
    | some (_, found) =>
      if ← equal value found then equalEntries equal lookup rest else return false

/-- Equality with the pairs of containers under comparison, nesting at most so deeply. -/
def eqlWithin : Nat → List (Handle × Handle) → Value → Value → Run Bool
  | 0, _, _, _ => tooDeep
  | room + 1, comparing, lhs, rhs =>
    match lhs, rhs with
    | .text l, .text r =>
      if l = r then return true
      else do
        let left ← text l
        return left = (← text r)
    | .book l, .book r =>
      if l = r ∨ (l, r) ∈ comparing then return true
      else do
        let left ← book l
        let right ← book r
        if left.size ≠ right.size then return false
        else
          withPinned (left.toList ++ right.toList)
            (equalPages (eqlWithin room ((l, r) :: comparing)) (left.toList.zip right.toList))
    | .codex l, .codex r =>
      if l = r ∨ (l, r) ∈ comparing then return true
      else do
        let left ← codex l
        let right ← codex r
        if left.length ≠ right.length then return false
        else
          withPinned ((left.flatMap fun (k, v) => [k, v]) ++ [rhs])
            (equalEntries (eqlWithin room ((l, r) :: comparing))
              (searchCodex (eqlWithin room []) r) left)
    | .imitation _, _ => do
      match ← callChange? lhs "==" [lhs, rhs] with
      | some result => toVeracity result
      | none => return lhs = rhs
    | _, _ => return lhs = rhs

/-- Room for a path through every pair of slots, and for another one each time that the comparison
of two codices goes on to their keys. -/
def comparisonRoom (capacity : Nat) : Nat :=
  capacity * (capacity * capacity + 1) + capacity * capacity

/-- Language equality. There is room for it however little the computation may nest. -/
def eql (lhs rhs : Value) : Run Bool := do
  let capacity := (← get).heap.capacity
  eqlWithin ((← depth) + comparisonRoom capacity + 1) [] lhs rhs

/-- The place and value of a key in a codex. -/
def codexPosition? (h : Handle) (key : Value) : Run (Option (Nat × Value)) :=
  searchCodex eql h key

def codexLookup? (h : Handle) (key : Value) : Run (Option Value) :=
  return (← codexPosition? h key).map (·.2)

/-- Changes the entries of a codex at a position that a search has found. The search may have run
code that took the entry away. -/
def editEntry (h : Handle) (position : Nat)
    (f : List (Value × Value) → List (Value × Value)) : Run Unit := do
  if position < (← codex h).length then editCodex h f else fail (.staleEntry position)

/-- Takes out of a codex the entry at a position that a search has found, and notes it. -/
def removeEntry (h : Handle) (position : Nat) : Run Unit := do
  if position < (← codex h).length then
    modify fun m => { m with
      heap := m.heap.modify h fun
        | .codex entries => .codex (entries.eraseIdx position)
        | object => object
      removals := (h, position) :: m.removals }
  else fail (.staleEntry position)

/-- Stores a value under a key: in place of an equal key's value, or as the last entry. -/
def codexInsert (h : Handle) (key value : Value) : Run Unit := do
  match ← withPinned [key, value] (codexPosition? h key) with
  | some (position, _) => editEntry h position (·.modify position fun (k, _) => (k, value))
  | none => editCodex h (· ++ [(key, value)])

def codexRemove? (h : Handle) (key : Value) : Run (Option Value) := do
  match ← codexPosition? h key with
  | none => return none
  | some (position, value) =>
    removeEntry h position
    return some value

def codexInsertAll (h : Handle) : List (Value × Value) → Run Unit
  | [] => return ()
  | (key, value) :: rest => do
    codexInsert h key value
    codexInsertAll h rest

/-- Allocates a codex. Later entries replace earlier ones of an equal key. -/
def newCodex (entries : List (Value × Value)) : Run Value := do
  let h ← withPinned (entries.flatMap fun (k, v) => [k, v]) (allocate (.codex []))
  withPinned [.codex h] do
    codexInsertAll h entries
    return .codex h

/-- Appends the books of two pages that the pairs give, each allocated in turn. -/
def pushPairs (target : Handle) : List (Value × Value) → Run Unit
  | [] => return ()
  | (a, b) :: rest => do
    let pair ← newBook #[a, b]
    editBook target (·.push pair)
    pushPairs target rest

def pushTexts (target : Handle) : List String → Run Unit
  | [] => return ()
  | content :: rest => do
    let page ← newText content
    editBook target (·.push page)
    pushTexts target rest

/-- The book of a value: the digits of a numeral, the characters of a text, the entries of a codex
as pairs. A book is its own. -/
def toBook (v : Value) : Run Value :=
  match v with
  | .book _ => return v
  | .ni => newBook #[]
  | .numeral n =>
    newBook ((Nat.repr n.toInt.natAbs).toList.map fun c =>
      Value.numeral (Int64.ofNat (c.toNat - '0'.toNat))).toArray
  | .text h => do
    let characters := (← text h).toList.map String.singleton
    let target ← allocate (.book #[])
    withPinned [.book target] do
      pushTexts target characters
      return .book target
  | .codex h => do
    let entries ← codex h
    let target ← allocate (.book #[])
    withPinned [v, .book target] do
      pushPairs target entries
      return .book target
  | .imitation _ => do
    match ← convertBy? v "to_book" .book with
    | some result => return result
    | none => cannotConvert v "book"
  | .veracity _ | .form _ | .journey _ | .other _ => cannotConvert v "book"

/-- The pages of a book with their numbers from one. -/
def numbered (pages : List Value) : List (Value × Value) :=
  pages.mapIdx fun i page => (.numeral (Int64.ofNat (i + 1)), page)

/-- The codex of a value: a book by page number. A codex is its own. -/
def toCodex (v : Value) : Run Value :=
  match v with
  | .codex _ => return v
  | .ni => newCodex []
  | .book h => do
    let entries := numbered (← book h).toList
    withPinned [v] (newCodex entries)
  | .imitation _ => do
    match ← convertBy? v "to_codex" .codex with
    | some result => return result
    | none => cannotConvert v "codex"
  | _ => cannotConvert v "codex"

end JourneyMachine.Run
