import JourneyMachine.Host.Programs.Number
import JourneyMachine.Host.Shell.Expansion

namespace JourneyMachine.Host.Shell

def regularBuiltins : List String :=
  ["[", "alias", "bg", "cd", "chdir", "command", "echo", "false", "fg", "getopts", "hash", "jobs",
   "kill", "printf", "pwd", "read", "test", "true", "type", "ulimit", "umask", "unalias", "wait"]

/-- Whether an error in a builtin, or an assignment before it, outlasts it. -/
def isSpecial (name : String) : Bool := name = "local" || name ∈ specialBuiltins

def isBuiltin (name : String) : Bool := isSpecial name || name ∈ regularBuiltins

def assigningBuiltins : List String := ["alias", "export", "local", "readonly"]

structure Reply where
  output : String := ""
  status : Nat := 0

namespace Builtin

open Act

/-- The options in a word that starts with a hyphen. `allowed` tells which letters there are, and
which of them take a value. The options stand backwards. -/
def letters (allowed : List (Char × Bool)) :
    List Char → List String → List (Char × String) → Act (List (Char × String) × List String)
  | [], words, done => return (done, words)
  | c :: cs, words, done =>
    match allowed.lookup c, cs, words with
    | none, _, _ => fail ("Illegal option -" ++ c.toString)
    | some false, _, _ => letters allowed cs words ((c, "") :: done)
    | some true, [], [] => fail ("No arg for -" ++ c.toString ++ " option")
    | some true, [], value :: words => return ((c, value) :: done, words)
    | some true, _, _ => return ((c, String.ofList cs) :: done, words)

def options (allowed : List (Char × Bool)) :
    Nat → List (Char × String) → List String → Act (List (Char × String) × List String)
  | 0, done, words => return (done, words)
  | _ + 1, done, [] => return (done, [])
  | room + 1, done, word :: words =>
    match word.toList with
    | ['-', '-'] => return (done, words)
    | '-' :: c :: cs => do
      let (done, words) ← letters allowed (c :: cs) words done
      options allowed room done words
    | _ => return (done, word :: words)

def flags (allowed : List Char) (words : List String) : Act (List Char × List String) := do
  let (found, words) ← options (allowed.map (·, false)) (words.length + 1) [] words
  return (found.map Prod.fst, words)

def number (word : String) : Act Nat := do
  match Number.whole? false word.toList with
  | some (n, rest) =>
    if rest.all Number.isSpace && 0 ≤ n && n < 2147483648 then return n.toNat
    else fail ("Illegal number: " ++ word)
  | none => fail ("Illegal number: " ++ word)

def lines (list : List String) : String := String.join (list.map (· ++ "\n"))

end Builtin

end JourneyMachine.Host.Shell
