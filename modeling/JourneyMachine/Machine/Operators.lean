import JourneyMachine.Machine.Equality

namespace JourneyMachine.Run

/-- The greatest number of pages or bytes that an operator builds. -/
def maxLength : Nat := 4294967295

def cannotApply {α : Type} (operator : BinaryOperator) (lhs rhs : Value) : Run α := do
  let left ← typeName lhs
  let right ← typeName rhs
  complain (.binary operator left right)

def applyChange (operator : BinaryOperator) (lhs rhs : Value) : Run Value := do
  match ← callChange? lhs operator.change [lhs, rhs] with
  | some result => return result
  | none => cannotApply operator lhs rhs

def orderingNumeral : Ordering → Int64
  | .lt => -1
  | .eq => 0
  | .gt => 1

def compareTexts (a b : String) : Ordering :=
  if a < b then .lt else if a = b then .eq else .gt

def cmp (lhs rhs : Value) : Run Int64 :=
  match lhs with
  | .numeral l => do
    let r ← toNumeral rhs
    return orderingNumeral (compare l.toInt r.toInt)
  | .text h => do
    let right ← toText rhs
    return orderingNumeral (compareTexts (← text h) right)
  | .imitation _ => do toNumeral (← applyChange .compare lhs rhs)
  | _ => cannotApply .compare lhs rhs

def not (v : Value) : Run Value := do
  match ← callChange? v "!" [v] with
  | some result => return result
  | none => return .veracity !(← toVeracity v)

def neg (v : Value) : Run Value :=
  match v with
  | .numeral n => return .numeral (-n)
  | _ => do
    match ← callChange? v "-@" [v] with
    | some result => return result
    | none => complain (.cannotNegate (← typeName v))

/-- Runs a computation on the pages of a book, with the book, a journey and the pages pinned. -/
def withPages {α : Type} (source journey : Value) (body : List Value → Run α) : Run α := do
  let pages := (← book (← ofExcept (source.expectHandle .book))).toList
  withPinned (source :: journey :: pages) (body pages)

def selectPages (journey : Value) (target : Handle) : List Value → Run Unit
  | [] => return ()
  | page :: rest => do
    let keep ← call journey [page]
    if ← toVeracity keep then editBook target (·.push page)
    selectPages journey target rest

def mapPages (journey : Value) (target : Handle) : List Value → Run Unit
  | [] => return ()
  | page :: rest => do
    let mapped ← call journey [page]
    editBook target (·.push mapped)
    mapPages journey target rest

/-- Combines pages from the left; the accumulator is pinned during each call. -/
def reducePages (journey accumulator : Value) : List Value → Run Value
  | [] => return accumulator
  | page :: rest => do
    let next ← withPinned [accumulator] (call journey [accumulator, page])
    reducePages journey next rest

def bookSelect (source journey : Value) : Run Value :=
  withPages source journey fun pages => do
    let target ← allocate (.book #[])
    withPinned [.book target] do
      selectPages journey target pages
      return .book target

def bookMap (source journey : Value) : Run Value :=
  withPages source journey fun pages => do
    let target ← allocate (.book #[])
    withPinned [.book target] do
      mapPages journey target pages
      return .book target

def bookReduce (source journey : Value) : Run Value :=
  withPages source journey fun
    | [] => return .ni
    | first :: rest => reducePages journey first rest

def bookJoin (source separator : Value) : Run Value := do
  let between ← text (← ofExcept (separator.expectHandle .text))
  let parts ← withPages source .ni fun pages => pages.mapM toText
  newText (between.intercalate parts)

def productPages (target : Handle) (right : List Value) : List Value → Run Unit
  | [] => return ()
  | a :: rest => do
    pushPairs target (right.map fun b => (a, b))
    productPages target right rest

/-- Every pair of a page of the one book and a page of the other. -/
def bookProduct (lhs rhs : Value) : Run Value := do
  let left ← book (← ofExcept (lhs.expectHandle .book))
  let right ← book (← ofExcept (rhs.expectHandle .book))
  let count := left.size * right.size
  if maxLength < count then complain (.tooManyPairs (min count 18446744073709551615))
  else
    let target ← allocate (.book #[])
    withPinned [lhs, rhs, .book target] do
      productPages target right.toList left.toList
      return .book target

/-- `lhs + rhs`. A text on the right always appends to the text of the left. -/
def add (lhs rhs : Value) : Run Value :=
  match rhs, lhs with
  | .text h, _ => do
    let left ← toText lhs
    newText (left ++ (← text h))
  | _, .numeral l => return .numeral (l + (← toNumeral rhs))
  | _, .text h => do
    let right ← toText rhs
    newText ((← text h) ++ right)
  | .journey _, .book _ => bookSelect lhs rhs
  | _, .book h => do
    let right ← withPinned [lhs] (toBook rhs)
    let pages ← book h
    let more ← book (← ofExcept (right.expectHandle .book))
    withPinned [lhs, right] (newBook (pages ++ more))
  | _, _ => applyChange .add lhs rhs

def sub (lhs rhs : Value) : Run Value :=
  match lhs with
  | .numeral l => return .numeral (l - (← toNumeral rhs))
  | _ => applyChange .subtract lhs rhs

/-- How often something of that length is repeated, if the whole stays within bounds. What is empty
need not be repeated at all. -/
def repetitions? (amount : Int64) (length : Nat) : Option Nat :=
  if amount.toInt < 0 then none
  else if length = 0 then some 0
  else if length * amount.toInt.toNat ≤ maxLength then some amount.toInt.toNat
  else none

def repeatText (content : String) (count : Nat) : String :=
  String.join (List.replicate count content)

def mul (lhs rhs : Value) : Run Value :=
  match lhs with
  | .numeral l => return .numeral (l * (← toNumeral rhs))
  | .text h => do
    let amount ← toNumeral rhs
    let content ← text h
    match repetitions? amount content.utf8ByteSize with
    | some count => newText (repeatText content count)
    | none => complain (.textRepetition amount)
  | .book h =>
    match rhs with
    | .numeral amount => do
      let pages ← book h
      match repetitions? amount pages.size with
      | some count => newBook (Array.replicate count pages).flatten
      | none => complain (.bookRepetition amount)
    | .text _ => bookJoin lhs rhs
    | .book _ => bookProduct lhs rhs
    | .journey _ => bookMap lhs rhs
    | _ => cannotApply .multiply lhs rhs
  | _ => applyChange .multiply lhs rhs

/-- `lhs / rhs`, towards zero. -/
def div (lhs rhs : Value) : Run Value :=
  match lhs with
  | .numeral l => do
    let r ← toNumeral rhs
    if r = 0 then complain .divisionByZero else return .numeral (l / r)
  | _ => applyChange .divide lhs rhs

/-- `lhs % rhs`, with the sign of the left operand. -/
def rem (lhs rhs : Value) : Run Value :=
  match lhs, rhs with
  | .numeral l, _ => do
    let r ← toNumeral rhs
    if r = 0 then complain .moduloByZero else return .numeral (l % r)
  | .book _, .journey _ => bookReduce lhs rhs
  | _, _ => applyChange .modulo lhs rhs

def pow (lhs rhs : Value) : Run Value :=
  match lhs with
  | .numeral base => return .numeral (Numeral.power base (← toNumeral rhs))
  | _ => applyChange .exponentiate lhs rhs

/-- The position of an index counted from one, or from the end if it is negative. -/
def pagePosition (index : Int64) (length : Nat) : Run Nat :=
  if index = 0 then complain .zeroIndex
  else
    let position := if 0 < index.toInt then index.toInt - 1 else index.toInt + length
    if position < 0 then complain (.indexRange index) else return position.toNat

/-- `container[key]`. What is not there is ni. -/
def index (container key : Value) : Run Value :=
  match container with
  | .text h => do
    let i ← toNumeral key
    if i = 0 then complain .zeroIndex
    else
      let characters := (← text h).toList
      let position := if 0 < i.toInt then i.toInt - 1 else i.toInt + characters.length
      if position < 0 then return .ni
      else
        match characters[position.toNat]? with
        | some c => newText (String.singleton c)
        | none => return .ni
  | .book h => do
    let i ← toNumeral key
    let position ← pagePosition i (← book h).size
    return (← book h).getD position .ni
  | .codex h => return (← codexLookup? h key).getD .ni
  | _ => do
    match ← callChange? container "[]" [container, key] with
    | some result => return result
    | none => complain (.cannotIndex (← typeName container))

def growBook (h : Handle) (length : Nat) : Run Unit := do
  let size := (← book h).size
  if length ≤ size then return ()
  else if maxLength < length then complain (.bookGrowth length)
  else editBook h fun pages => pages ++ Array.replicate (length - pages.size) .ni

/-- `container[key] = new`. Books grow to fit. -/
def indexAssign (container key new : Value) : Run Unit :=
  match container with
  | .book h => do
    let i ← toNumeral key
    let position ← pagePosition i (← book h).size
    growBook h (position + 1)
    editBook h (·.setIfInBounds position new)
  | .codex h => codexInsert h key new
  | _ => do
    match ← callChange? container "[]=" [container, key, new] with
    | some _ => return ()
    | none => complain (.cannotIndexAssign (← typeName container))

/-- Inserts a value so that it ends up at the index; the index minus one appends. -/
def insertPage (container key new : Value) : Run Unit :=
  match container with
  | .book h => do
    let i ← toNumeral key
    let length := (← book h).size
    let position ← pagePosition i (if i.toInt < 0 then length + 1 else length)
    growBook h position
    editBook h (·.insertIdxIfInBounds position new)
  | _ => complain .insertOnly

/-- Deletes a page or an entry and returns it; ni if there is none. -/
def delete (container key : Value) : Run Value :=
  match container with
  | .book h => do
    let i ← toNumeral key
    let position ← pagePosition i (← book h).size
    let page := (← book h).getD position .ni
    editBook h (·.eraseIdxIfInBounds position)
    return page
  | .codex h => return (← codexRemove? h key).getD .ni
  | _ => complain .deleteOnly

/-- The characters from a position counted from one, at most `count` of them. -/
def substr (source start count : Value) : Run Value := do
  let content ← toText source
  let first ← toNumeral start
  if first = 0 then complain .zeroIndex
  else
    let count ← toNumeral count
    let characters := if first.toInt < 0 then [] else content.toList.drop (first.toInt - 1).toNat
    newText (String.ofList (characters.take count.toInt.toNat))

/-- The character of a code below 256, or the code of a text's first character. -/
def ascii (v : Value) : Run Value :=
  match v with
  | .numeral n => newText (String.singleton (Char.ofNat (n.toInt % 256).toNat))
  | .text h => do
    let code := ((← text h).toList.head?.map Char.toNat).getD 0
    return .numeral (Int64.ofNat code)
  | _ => do complain (.asciiOnly (← typeName v))

end JourneyMachine.Run
