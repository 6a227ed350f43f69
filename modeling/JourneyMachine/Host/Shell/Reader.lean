import JourneyMachine.Host.Shell.Grammar

namespace JourneyMachine.Host.Shell

/-- A token. The text of a word is kept in the reader. -/
inductive Token where
  | endOfFile
  | newline
  | operator (text : String)
  | redirection
  | word
  | keyword (text : String)
deriving DecidableEq, Repr, Inhabited

def Token.describe : Token → String
  | endOfFile => "end of file"
  | newline => "newline"
  | operator text | keyword text => "\"" ++ text ++ "\""
  | redirection => "redirection"
  | word => "word"

def keywords : List String :=
  ["!", "case", "do", "done", "elif", "else", "esac", "fi", "for", "if", "in", "then", "until",
   "while", "\x7b", "\x7d"]

def specialBuiltins : List String :=
  [".", ":", "break", "continue", "eval", "exec", "exit", "export", "readonly", "return", "set",
   "shift", "times", "trap", "unset"]

structure Pending where
  number : Nat
  delimiter : List Char
  stripsTabs : Bool
  expands : Bool

structure Reader where
  rest : List Char
  line : Nat := 1
  /-- The last token is to be read again. -/
  pushed : Bool := false
  last : Token := .newline
  word : Word := []
  /-- Something in the word was quoted. -/
  quoted : Bool := false
  /-- The redirection that was read last, and whether its document loses leading tabs. -/
  redirection : Nat × Direction × Bool := (0, .input, false)
  seeksKeywords : Bool := false
  seeksAliases : Bool := false
  skipsNewlines : Bool := false
  /-- The next word is the end mark of a document, in which nothing is expanded. -/
  seeksDelimiter : Bool := false
  pending : List Pending := []
  documents : Array Word := #[]
  aliases : List (String × String) := []
  /-- Aliases in use, each with the length of the text that follows its own. -/
  expanding : List (Nat × String) := []

structure Flaw where
  line : Nat
  message : String
deriving Repr

abbrev Read := EStateM Flaw Reader

def plenty : Nat := 1000000000

namespace Read

def flaw {α : Type} (message : String) : Read α := do
  throw { line := (← get).line, message }

def unexpected {α : Type} (wanted : Option Token) : Read α := do
  let last := (← get).last.describe
  match wanted with
  | none => flaw (last ++ " unexpected")
  | some token => flaw (last ++ " unexpected (expecting " ++ token.describe ++ ")")

/-- Drops backslashes that hide the end of a line, and counts the lines. -/
def splice : List Char → Nat → List Char × Nat
  | '\\' :: '\n' :: rest, lines => splice rest (lines + 1)
  | cs, lines => (cs, lines)

def peekRaw : Read (Option Char) := return (← get).rest.head?

def peek : Read (Option Char) := do
  match (← get).rest with
  | '\\' :: '\n' :: _ =>
    modify fun r =>
      let (rest, lines) := splice r.rest 0
      { r with rest, line := r.line + lines }
    return (← get).rest.head?
  | c :: _ => return some c
  | [] => return none

def advance : Read Unit :=
  modify fun r =>
    match r.rest with
    | '\n' :: rest => { r with rest, line := r.line + 1 }
    | _ :: rest => { r with rest }
    | [] => r

/-- Passes over a character that does not count as the end of a line. -/
def dropUncounted : Read Unit := modify fun r => { r with rest := r.rest.tail }

def next : Read (Option Char) := do
  let c ← peek
  advance
  return c

def skip (c : Char) : Read Bool := do
  if (← peek) = some c then
    advance
    return true
  else return false

end Read

end JourneyMachine.Host.Shell
