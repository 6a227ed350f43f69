import JourneyMachine.Host.Programs.Number
import JourneyMachine.Host.Shell.Grammar

namespace JourneyMachine.Host.Shell.Arithmetic

open Number (wrap clamp)

inductive Token where
  | number (n : Int)
  | name (text : String)
  | symbol (text : String)
  /-- A character that no expression contains. -/
  | stray
  | finish
deriving DecidableEq, Repr

def symbols : List String :=
  ["<<=", ">>=", "<=", ">=", "<<", ">>", "==", "!=", "&&", "||", "+=", "-=", "*=", "/=", "%=",
   "&=", "^=", "|=", "<", ">", "=", "!", "&", "|", "+", "-", "*", "/", "%", "^", "~", "(", ")",
   "?", ":"]

def tokens : Nat → List Char → List Token
  | 0, _ => []
  | _ + 1, [] => []
  | room + 1, c :: rest =>
    if c = ' ' ∨ c = '\t' ∨ c = '\n' then tokens room rest
    else if c.isDigit then
      match Number.whole? true (c :: rest) with
      | some (n, rest) => .number (clamp n) :: tokens room rest
      | none => [.stray]
    else if isNameStart c then
      let name := (c :: rest).takeWhile isNameChar
      .name (String.ofList name) :: tokens room ((c :: rest).dropWhile isNameChar)
    else
      match symbols.find? fun s => s.toList.isPrefixOf (c :: rest) with
      | some s => .symbol s :: tokens room ((c :: rest).drop s.length)
      | none => .stray :: tokens room rest

structure State where
  tokens : List Token
  /-- The text of a variable. -/
  value : String → Option String
  /-- Whether a variable may not be changed. -/
  locked : String → Bool
  /-- The assignments made so far, the last one first. -/
  assigned : List (String × Int) := []

inductive Failure where
  /-- The expression is at fault. -/
  | expression (message : String)
  /-- Something else is. -/
  | other (message : String)

abbrev Eval := EStateM Failure State

namespace Eval

def fault {α : Type} (message : String) : Eval α := throw (.expression message)

def peek : Eval Token := return (← get).tokens.head?.getD .finish

def advance : Eval Unit := modify fun s => { s with tokens := s.tokens.tail }

def skip (symbol : String) : Eval Bool := do
  if (← peek) = .symbol symbol then
    advance
    return true
  else return false

/-- The number that a text spells, with blanks around it; an empty text is zero. -/
def ofText? (text : String) : Option Int :=
  let cs := text.toList
  match Number.whole? true cs with
  | some (n, rest) =>
    if rest.all Number.isSpace ∧ clamp n = n then some n else none
  | none => if cs.all Number.isSpace then some 0 else none

def lookup (name : String) : Eval Int := do
  let s ← get
  match s.assigned.lookup name with
  | some n => return n
  | none =>
    let text := (s.value name).getD ""
    match ofText? text with
    | some n => return n
    | none => throw (.other ("Illegal number: " ++ text))

def assign (name : String) (n : Int) : Eval Int := do
  if (← get).locked name then throw (.other (name ++ ": is read only"))
  modify fun s => { s with assigned := (name, n) :: s.assigned }
  return n

def truth (b : Bool) : Int := if b then 1 else 0

/-- How tightly an operator binds; the smaller, the tighter. -/
def rank? : String → Option Nat
  | "*" | "/" | "%" => some 0
  | "+" | "-" => some 1
  | "<<" | ">>" => some 2
  | "<" | ">" | "<=" | ">=" => some 3
  | "==" | "!=" => some 4
  | "&" => some 5
  | "^" => some 6
  | "|" => some 7
  | _ => none

def bits (n : Int) : BitVec 64 := BitVec.ofInt 64 n

def apply (operator : String) (a b : Int) : Eval Int :=
  match operator with
  | "*" => return wrap (a * b)
  | "/" => if b = 0 then fault "division by zero" else return wrap (a.tdiv b)
  | "%" => if b = 0 then fault "division by zero" else return wrap (a.tmod b)
  | "+" => return wrap (a + b)
  | "-" => return wrap (a - b)
  | "<<" => return (bits a <<< (b % 64).toNat).toInt
  | ">>" => return ((bits a).sshiftRight (b % 64).toNat).toInt
  | "<" => return truth (a < b)
  | ">" => return truth (b < a)
  | "<=" => return truth (a ≤ b)
  | ">=" => return truth (b ≤ a)
  | "==" => return truth (a = b)
  | "!=" => return truth (a ≠ b)
  | "&" => return (bits a &&& bits b).toInt
  | "^" => return (bits a ^^^ bits b).toInt
  | _ => return (bits a ||| bits b).toInt

/-- A number, a variable, an expression in brackets, or one of these behind signs. `whole` reads an
expression in brackets, and `counts` tells that the value counts. -/
def primary (whole : Bool → Eval Int) (counts : Bool) : Nat → Eval Int
  | 0 => fault "expecting primary"
  | room + 1 => do
    match ← peek with
    | .number n =>
      advance
      return n
    | .name name =>
      advance
      if counts then lookup name else return 0
    | .symbol "(" =>
      advance
      let n ← whole counts
      if ← skip ")" then return n else fault "expecting ')'"
    | .symbol "+" =>
      advance
      primary whole counts room
    | .symbol "-" =>
      advance
      return wrap (-(← primary whole counts room))
    | .symbol "!" =>
      advance
      return truth ((← primary whole counts room) = 0)
    | .symbol "~" =>
      advance
      return -(← primary whole counts room) - 1
    | _ => fault "expecting primary"

/-- Applies the operators that follow a value and bind at least as tightly as `rank`. -/
def binary (whole : Bool → Eval Int) (counts : Bool) (rank : Nat) : Nat → Int → Eval Int
  | 0, a => return a
  | room + 1, a => do
    match ← peek with
    | .symbol operator =>
      match rank? operator with
      | some r =>
        if rank < r then return a
        advance
        let b ← primary whole counts room
        let b ← if 0 < r then binary whole counts (r - 1) room b else pure b
        let a ← if counts then apply operator a b else pure b
        binary whole counts rank room a
      | none => return a
    | _ => return a

def conjunction (whole : Bool → Eval Int) (counts : Bool) : Nat → Eval Int
  | 0 => fault "expecting primary"
  | room + 1 => do
    let a ← binary whole counts 7 room (← primary whole counts room)
    if ← skip "&&" then
      let b ← conjunction whole (counts && a ≠ 0) room
      return truth (a ≠ 0 && b ≠ 0)
    else return a

def disjunction (whole : Bool → Eval Int) (counts : Bool) : Nat → Eval Int
  | 0 => fault "expecting primary"
  | room + 1 => do
    let a ← conjunction whole counts room
    if ← skip "||" then
      let b ← disjunction whole (counts && a = 0) room
      return truth (a ≠ 0 || b ≠ 0)
    else return a

def choice (whole : Bool → Eval Int) (counts : Bool) : Nat → Eval Int
  | 0 => fault "expecting primary"
  | room + 1 => do
    let a ← disjunction whole counts room
    if ← skip "?" then
      let b ← whole (counts && a ≠ 0)
      if !(← skip ":") then fault "expecting ':'"
      let c ← choice whole (counts && a = 0) room
      return if a ≠ 0 then b else c
    else return a

/-- The operator inside an assignment sign; none if the symbol is no assignment sign. -/
def assignment? (symbol : String) : Option (Option String) :=
  if symbol = "=" then some none
  else if symbol ∈ ["*=", "/=", "%=", "+=", "-=", "<<=", ">>=", "&=", "^=", "|="] then
    some (some (String.ofList symbol.toList.dropLast))
  else none

def whole : Nat → Bool → Eval Int
  | 0, _ => fault "expecting primary"
  | room + 1, counts => do
    match (← get).tokens with
    | .name name :: .symbol sign :: _ =>
      match assignment? sign with
      | some operator =>
        advance
        advance
        let n ← whole room counts
        if !counts then return n
        match operator with
        | none => assign name n
        | some operator => assign name (← apply operator (← lookup name) n)
      | none => choice (whole room) counts (room + 1)
    | _ => choice (whole room) counts (room + 1)

end Eval

/-- The value of an expression, and the assignments it makes, the first one first. -/
def evaluate (text : String) (value : String → Option String) (locked : String → Bool) :
    Except String (Int × List (String × Int)) :=
  let tokens := tokens text.length text.toList
  let body : Eval Int := do
    let n ← Eval.whole (4 * tokens.length + 8) true
    if (← Eval.peek) ≠ .finish then Eval.fault "expecting EOF"
    return n
  match body.run { tokens, value, locked } with
  | .ok n s => .ok (n, s.assigned.reverse)
  | .error (.expression message) _ =>
    .error ("arithmetic expression: " ++ message ++ ": \"" ++ text ++ "\"")
  | .error (.other message) _ => .error message

end JourneyMachine.Host.Shell.Arithmetic
