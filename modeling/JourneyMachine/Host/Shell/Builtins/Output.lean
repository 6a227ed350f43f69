import JourneyMachine.Host.Programs.Printf
import JourneyMachine.Host.Shell.Builtins.Basic
import JourneyMachine.Host.Shell.Condition

namespace JourneyMachine.Host.Shell

namespace Builtin

open Act

def echo (words : List String) : Reply :=
  let silent := words.head? = some "-n"
  let text := " ".intercalate (if silent then words.tail else words)
  let (cs, goesOn) := Printf.Job.unescape Printf.builtin text.length [] text.toList
  { output := String.ofList cs ++ if silent || !goesOn then "" else "\n" }

def printf (words : List String) : Act Reply := do
  let (_, words) ← flags [] words
  match words with
  | [] => fail "usage: printf format [arg ...]"
  | format :: words =>
    let (j, finish) := Printf.all Printf.builtin format words
    j.notes.reverse.forM warn
    let output := String.ofList j.written.reverse
    match finish with
    | .refused message =>
      discard (write 1 output)
      fail message
    | _ => return { output, status := if j.failed then 1 else 0 }

def test (words : List String) : Act Reply := do
  let s ← get
  match Condition.holds s.system s.directory words with
  | .ok result => return { status := if result then 0 else 1 }
  | .error message => fail message

def bracket (words : List String) : Act Reply := do
  if words.getLast?.any fun word => word.toList.head? = some ']' then test words.dropLast
  else fail "missing ]"

def directoryName (path : List String) : String := "/" ++ "/".intercalate path

def cd (words : List String) : Act Reply := do
  let (_, words) ← flags ['L', 'P'] words
  let (target, shown) ←
    match words with
    | [] => pure ((← value? "HOME").getD "", false)
    | "-" :: _ => pure ((← value? "OLDPWD").getD "", true)
    | word :: _ => pure (word, false)
  let s ← get
  let name := ofOctets (if target = "" then "." else target)
  match s.system.resolve s.directory name with
  | .error _ => fail ("can't cd to " ++ target)
  | .ok (path, _) =>
    if s.system.find? path ≠ some .directory then fail ("can't cd to " ++ target)
    setVariable "OLDPWD" (some (toOctets (directoryName s.directory))) true false
    let here := toOctets (directoryName path)
    setVariable "PWD" (some here) true false
    modify fun s => { s with directory := path }
    return { output := if shown then here ++ "\n" else "" }

def pwd (words : List String) : Act Reply := do
  discard (flags ['L', 'P'] words)
  return { output := toOctets (directoryName (← get).directory) ++ "\n" }

end Builtin

end JourneyMachine.Host.Shell
