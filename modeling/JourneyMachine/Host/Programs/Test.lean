import JourneyMachine.Host.Inspection
import JourneyMachine.Host.Programs.Basic
import JourneyMachine.Host.Programs.Number

namespace JourneyMachine.Host.Test

/-- The words of a condition, with the word that stands behind them. -/
structure Frame where
  scene : Scene
  words : Array String
  behind : Option String

abbrev Check := ReaderT Frame (EStateM String Nat)

namespace Check

def word (offset : Nat) : Check String := do
  return (← read).words.getD ((← get) + offset) ""

def left : Check Nat := do
  return (← read).words.size - (← get)

def beyond {α : Type} : Check α := do
  throw ("missing argument after " ++ quoteWord ((← read).words.back?.getD ""))

def advance (count : Nat) : Check Unit := modify (· + count)

def proceed : Check Unit := do
  advance 1
  if (← left) = 0 then beyond

def joins (operator : String) : Bool :=
  operator ∈ ["=", "==", "!=", "-nt", "-ot", "-ef", "-eq", "-ne", "-lt", "-le", "-gt", "-ge"]

def number (text : String) : Check Int := do
  let (negative, unsigned) := Number.sign (text.toList.dropWhile Number.isSpace)
  let (n, count, rest) := Number.digitsOf 10 0 0 unsigned
  if count ≠ 0 ∧ rest.all Number.isSpace then return if negative then -(n : Int) else n
  else throw ("invalid integer " ++ quoteWord text)

/-- Decides a condition on two words; the flag tells that the length of the first one counts. -/
def binary (counted : Bool) : Check Bool := do
  if counted then advance 1
  let words := (← read).words
  let scene := (← read).scene
  let start ← get
  let operator ← word 1
  let counts := start + 3 < words.size && (← word 2) = "-l"
  let (a, b) := (← word 0, ← word 2)
  let length : String := ← word 3
  if counts then advance 1
  let (first, last) := (← word 0, ← word 2)
  advance 3
  let compare (p : Int → Int → Bool) : Check Bool := do
    let m ← if counted then pure (a.length : Int) else number a
    let n ← if counts then pure (length.length : Int) else number b
    return p m n
  let plain (result : Bool) : Check Bool :=
    if counted || counts then throw (operator ++ " does not accept -l") else return result
  match operator with
  | "-eq" => compare fun m n => m = n
  | "-ne" => compare fun m n => m ≠ n
  | "-lt" => compare fun m n => m < n
  | "-le" => compare fun m n => m ≤ n
  | "-gt" => compare fun m n => n < m
  | "-ge" => compare fun m n => n ≤ m
  -- All things are of one age, and what is missing is older than any of them.
  | "-nt" => plain ((scene.place? a).isSome && (scene.place? b).isNone)
  | "-ot" => plain ((scene.place? a).isNone && (scene.place? b).isSome)
  | "-ef" => plain (scene.same a b)
  | "!=" => return first ≠ last
  | _ => return first = last

def isSwitch (text : String) : Bool :=
  match text.toList with
  | ['-', _] => true
  | _ => false

def unary : Check Bool := do
  let operator ← word 0
  let letter := (operator.toList.drop 1).head?.getD ' '
  if letter ∉ "erwxNOGfdsScbpLhugktnz".toList then
    throw (quoteWord operator ++ ": unary operator expected")
  proceed
  let operand ← word 0
  advance 1
  match letter with
  | 'n' => return operand ≠ ""
  | 'z' => return operand = ""
  | 't' =>
    discard (number operand)
    return false
  | _ => return (← read).scene.answers letter operand

def one : Check Bool := do
  let text ← word 0
  advance 1
  return text ≠ ""

def two : Check Bool := do
  let first ← word 0
  if first = "!" then
    advance 1
    return !(← one)
  else if isSwitch first then unary
  else beyond

def three (expression : Check Bool) : Check Bool := do
  let first ← word 0
  let second ← word 1
  if joins second then binary false
  else if first = "!" then
    proceed
    return !(← two)
  else if first = "(" ∧ (← word 2) = ")" then
    advance 1
    let result ← one
    advance 1
    return result
  else if second = "-a" ∨ second = "-o" then expression
  else throw (quoteWord second ++ ": binary operator expected")

/-- So many words; `expression` decides those joined by `-a` and `-o`. -/
def several (expression : Check Bool) (count : Nat) : Check Bool := do
  match count with
  | 1 => one
  | 2 => two
  | 3 => three expression
  | 4 =>
    let first ← word 0
    if first = "!" then
      proceed
      return !(← three expression)
    else if first = "(" ∧ (← word 3) = ")" then
      advance 1
      let result ← two
      advance 1
      return result
    else expression
  | _ => expression

/-- Passes over negations; whether they turn the result around. -/
def negations : Nat → Bool → Check Bool
  | 0, negated => return negated
  | room + 1, negated => do
    if 0 < (← left) ∧ (← word 0) = "!" then
      proceed
      negations room (!negated)
    else return negated

/-- How many words stand between parentheses: up to four, or all that are left. -/
def enclosed (words : List String) : Nat :=
  let count := 1 + (words.drop 1).findIdx (· = ")")
  if 4 < count then words.length else count

/-- A condition without `-a` and `-o`; `inside` decides so many words between parentheses. -/
def term (inside : Nat → Check Bool) : Check Bool := do
  let negated ← negations (← read).words.size false
  if (← left) = 0 then beyond
  let first ← word 0
  let result ←
    if first = "(" then do
      proceed
      let result ← inside (enclosed ((← read).words.toList.drop (← get)))
      let found := (← read).words.toList[← get]?
      match found.or (← read).behind with
      | none => throw "')' expected"
      | some text =>
        if text ≠ ")" then throw ("')' expected, found " ++ quoteWord text)
      advance 1
      pure result
    else if 4 ≤ (← left) ∧ first = "-l" ∧ joins (← word 2) then binary true
    else if 3 ≤ (← left) ∧ joins (← word 1) then binary false
    else if isSwitch first then unary
    else one
  return result != negated

def conjunction (inside : Nat → Check Bool) : Nat → Bool → Check Bool
  | 0, holds => return holds
  | room + 1, holds => do
    let holds := (← term inside) && holds
    if 0 < (← left) ∧ (← word 0) = "-a" then
      advance 1
      conjunction inside room holds
    else return holds

def disjunction (inside : Nat → Check Bool) : Nat → Bool → Check Bool
  | 0, holds => return holds
  | room + 1, holds => do
    let holds := (← conjunction inside (room + 1) true) || holds
    if 0 < (← left) ∧ (← word 0) = "-o" then
      advance 1
      disjunction inside room holds
    else return holds

def whole : Nat → Nat → Check Bool
  | 0, _ => return false
  | room + 1, count => do
    let expression : Check Bool := do
      if (← left) = 0 then beyond
      disjunction (fun count => whole room count) ((← read).words.size + 1) false
    several expression count

end Check

def holds (scene : Scene) (words : List String) (behind : Option String) : Except String Bool :=
  if words = [] then .ok false
  else
    let body : Check Bool := do
      let result ← Check.whole (words.length + 1) words.length
      if 0 < (← Check.left) then throw ("extra argument " ++ quoteWord (← Check.word 0))
      return result
    match (body.run { scene, words := words.toArray, behind }).run 0 with
    | .ok result _ => .ok result
    | .error message _ => .error message

/-- The program, which goes by the name it was called; with `bracket`, a bracket ends the words. -/
def run (self : String) (bracket : Bool) (words : List String) : Program Nat := do
  if bracket && words.getLast? ≠ some "]" then
    Program.complain (self ++ ": missing ']'")
    return 2
  let scene : Scene := { system := ← get, directory := (← read).directory }
  let words := if bracket then words.dropLast else words
  match holds scene words (if bracket then some "]" else none) with
  | .ok result => return if result then 0 else 1
  | .error message =>
    Program.complain (self ++ ": " ++ message)
    return 2

end JourneyMachine.Host.Test
