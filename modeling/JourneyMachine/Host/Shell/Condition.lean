import JourneyMachine.Host.Inspection
import JourneyMachine.Host.Programs.Number

namespace JourneyMachine.Host.Shell.Condition

inductive Kind where
  | unary
  | binary
  | negation
  | conjunction
  | disjunction
  | opening
  | closing
deriving DecidableEq, Repr

def kind? (word : String) : Option Kind :=
  if word ∈ ["-r", "-w", "-x", "-e", "-f", "-d", "-c", "-b", "-p", "-u", "-g", "-k", "-s", "-t",
      "-z", "-n", "-h", "-L", "-O", "-G", "-S"] then some .unary
  else if word ∈ ["=", "!=", "<", ">", "-eq", "-ne", "-ge", "-gt", "-le", "-lt", "-nt", "-ot",
      "-ef"] then some .binary
  else if word = "!" then some .negation
  else if word = "-a" then some .conjunction
  else if word = "-o" then some .disjunction
  else if word = "(" then some .opening
  else if word = ")" then some .closing
  else none

/-- A condition being read: the words from the current one on. -/
abbrev Check := ReaderT Scene (EStateM String (List String))

namespace Check

/-- Gives up with a message, which an operator may be at fault for. -/
def refuse {α : Type} (operator message : String) : Check α :=
  throw (if operator = "" then message else operator ++ ": " ++ message)

/-- The kind of the first of some words, where an operator at the end, or in front of another
operator, is taken for a text. -/
def lex (words : List String) : Option Kind :=
  match words with
  | [] => none
  | word :: rest =>
    match kind? word with
    | some .unary =>
      match rest with
      | [] => none
      | [_] => some .unary
      | next :: _ => if kind? next = some .binary then none else some .unary
    | some .opening => if rest = [] then none else some .opening
    | kind => kind

def advance (count : Nat) : Check Unit := modify (·.drop count)

def number (text : String) : Check Int := do
  match Number.whole? false text.toList with
  | some (n, rest) =>
    if rest.all Number.isSpace && Number.clamp n = n then return n
    else throw ("Illegal number: " ++ text)
  | none => throw ("Illegal number: " ++ text)

def unary (operator operand : String) : Check Bool := do
  match operator with
  | "-z" => return operand = ""
  | "-n" => return operand ≠ ""
  | "-t" =>
    discard (number operand)
    return false
  | _ => return (← read).answers ((operator.toList.drop 1).head?.getD ' ') operand

def before (a b : String) : Bool := a < b

def binary (operator a b : String) : Check Bool := do
  let compare (p : Int → Int → Bool) : Check Bool := do
    let m ← number a
    let n ← number b
    return p m n
  match operator with
  | "=" => return a = b
  | "!=" => return a ≠ b
  | "<" => return before a b
  | ">" => return before b a
  | "-eq" => compare fun m n => m = n
  | "-ne" => compare fun m n => m ≠ n
  | "-ge" => compare fun m n => n ≤ m
  | "-gt" => compare fun m n => n < m
  | "-le" => compare fun m n => m ≤ n
  | "-lt" => compare fun m n => m < n
  | "-ef" => return (← read).same a b
  -- All files are of one age.
  | _ => return false

/-- A condition without `-a` and `-o` at its top. `whole` decides what is in brackets. -/
def primary (whole : Option Kind → Check Bool) (kind : Option Kind) : Check Bool := do
  match ← get with
  | [] => return false
  | word :: rest =>
    match kind with
    | some .opening =>
      advance 1
      let kind := lex rest
      if kind = some .closing then return false
      let result ← whole kind
      advance 1
      if lex (← get) ≠ some .closing then refuse "" "closing paren expected"
      return result
    | some .unary =>
      advance 1
      match rest with
      | [] => refuse word "argument expected"
      | operand :: _ => unary word operand
    | _ =>
      match lex rest, rest with
      | some .binary, operator :: after =>
        advance 2
        match after with
        | [] => refuse operator "argument expected"
        | operand :: _ => binary operator word operand
      | _, _ => return word ≠ ""

def negated (whole : Option Kind → Check Bool) : Nat → Option Kind → Check Bool
  | 0, _ => return false
  | room + 1, kind => do
    if kind = some .negation then
      let rest := (← get).tail
      if rest ≠ [] then advance 1
      return !(← negated whole room (if rest = [] then none else lex rest))
    else primary whole kind

def conjunction (whole : Option Kind → Check Bool) : Nat → Bool → Option Kind → Check Bool
  | 0, _, _ => return false
  | room + 1, so_far, kind => do
    let result ← negated whole room kind
    let so_far := so_far && result
    if lex (← get).tail = some .conjunction then
      advance 2
      conjunction whole room so_far (lex (← get))
    else return so_far

def disjunction (whole : Option Kind → Check Bool) : Nat → Bool → Option Kind → Check Bool
  | 0, _, _ => return false
  | room + 1, so_far, kind => do
    let result ← conjunction whole room true kind
    let so_far := so_far || result
    if lex (← get).tail = some .disjunction then
      advance 2
      disjunction whole room so_far (lex (← get))
    else return so_far

def whole : Nat → Option Kind → Check Bool
  | 0, _ => return false
  | room + 1, kind => disjunction (fun kind => whole room kind) (room + 1) false kind

end Check

/-- Reads words by their number: three or four words mean what the operators among them say. -/
def prepared : Nat → Bool → List String → Bool × Option Kind × List String
  | 0, negated, words => (negated, Check.lex words, words)
  | room + 1, negated, words =>
    let bracketed := words.head? = some "(" && words.getLast? = some ")"
    let inside := (words.drop 1).dropLast
    match words with
    | [_, operator, _] =>
      if kind? operator = some .binary then (negated, none, words)
      else if bracketed then (negated, Check.lex inside, inside)
      else if words.head? = some "!" then prepared room (!negated) words.tail
      else (negated, Check.lex words, words)
    | [_, _, _, _] =>
      if bracketed then (negated, Check.lex inside, inside)
      else if words.head? = some "!" then prepared room (!negated) words.tail
      else (negated, Check.lex words, words)
    | _ => (negated, Check.lex words, words)

def holds (system : System) (directory : List String) (words : List String) :
    Except String Bool :=
  if words = [] then .ok false
  else
    let (negated, kind, words) := prepared 4 false words
    let body : Check Bool := do
      let result ← Check.whole (words.length + 2) kind
      match ← get with
      | word :: _ :: _ => Check.refuse word "unexpected operator"
      | _ => return result
    match (body.run { system, directory }).run words with
    | .ok result _ => .ok (result != negated)
    | .error message _ => .error message

end JourneyMachine.Host.Shell.Condition
