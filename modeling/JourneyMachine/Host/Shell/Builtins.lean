import JourneyMachine.Host.Shell.Builtins.Names
import JourneyMachine.Host.Shell.Builtins.Output

namespace JourneyMachine.Host.Shell

namespace Builtin

open Act

/-- The signals by number; leaving the shell counts as one. -/
def signals : List String :=
  ["EXIT", "HUP", "INT", "QUIT", "ILL", "TRAP", "ABRT", "BUS", "FPE", "KILL", "USR1", "SEGV",
   "USR2", "PIPE", "ALRM", "TERM"]

def signal? (word : String) : Option String :=
  match word.toNat? with
  | some n => signals[n]?
  | none => let name := word.map Char.toUpper; if name ∈ signals then some name else none

def trap (words : List String) : Act Reply := do
  let (_, words) ← flags [] words
  match words with
  | [] =>
    let s ← get
    return { output := lines (signals.filterMap fun name =>
      (s.traps.lookup name).map fun action => "trap -- " ++ singleQuoted action ++ " " ++ name) }
  | first :: rest =>
    let reset := rest.isEmpty || first.toList.all Char.isDigit && !first.isEmpty
    let action? := if reset || first = "-" then none else some first
    (if reset then words else rest).foldlM (fun (reply : Reply) word => do
      if reply.status ≠ 0 then return reply
      match signal? word with
      | none =>
        discard (write 2 ("trap: " ++ word ++ ": bad trap\n"))
        return { status := 1 }
      | some name =>
        modify fun s =>
          { s with
            traps := (action?.map (name, ·)).toList ++ s.traps.filter fun (n, _) => n ≠ name }
        return reply) {}

def wait (words : List String) : Act Reply := do
  match words.getLast? with
  | none => return {}
  | some word =>
    if word.toList.head? = some '%' then fail ("No such job: " ++ word)
    match (← get).background with
    | some status =>
      return { status := if word = toString (processNumber + 1) then status else 127 }
    | none => return { status := 127 }

def leaveLoops (again : Bool) (words : List String) : Act Reply := do
  let count ← match words with
    | [] => pure 1
    | word :: _ =>
      let n ← number word
      if n = 0 then fail ("Illegal number: " ++ word)
      pure n
  let around := (← get).loops
  if around = 0 then return {}
  setStatus 0
  throw (.loops (min count around) again)

/-- Leaves a function or the shell with a status, which is that of the last command if none is
given. -/
def leave (how : Leave) (words : List String) : Act Reply := do
  match words with
  | [] => pure ()
  | word :: _ => setStatus (← number word)
  throw how

def rights (mask : Nat) : String :=
  (if mask / 4 % 2 = 0 then "r" else "") ++ (if mask / 2 % 2 = 0 then "w" else "") ++
    if mask % 2 = 0 then "x" else ""

/-- The rights that new files lack, in octal digits, or those that they have, in letters. -/
def umask (words : List String) : Act Reply := do
  let (found, words) ← flags ['S'] words
  match words with
  | [] =>
    let mask := (← get).mask
    if found.isEmpty then
      return { output := "0" ++ String.ofList (threeOctal mask) ++ "\n" }
    return { output := "u=" ++ rights (mask / 64) ++ ",g=" ++ rights (mask / 8) ++ ",o=" ++
              rights mask ++ "\n" }
  | word :: _ =>
    if word.toList.all fun c => '0' ≤ c && c ≤ '7' then
      let mask := word.toList.foldl (fun n c => n * 8 + (c.toNat - 48)) 0
      modify fun s => { s with mask := mask % 512 }
      return {}
    else fail ("Illegal number: " ++ word)

def run (name : String) (words : List String) : Act Reply :=
  match name with
  | ":" | "true" => return {}
  | "false" => return { status := 1 }
  | "echo" => return echo words
  | "printf" => printf words
  | "test" => test words
  | "[" => bracket words
  | "cd" | "chdir" => cd words
  | "pwd" => pwd words
  | "read" => read words
  | "export" | "readonly" => mark name words
  | "unset" => unset words
  | "local" => declareLocal words
  | "shift" => shift words
  | "set" => configure words
  | "getopts" => getopts words
  | "type" => type words
  | "command" => command words
  | "alias" => defineAliases words
  | "unalias" => unalias words
  | "trap" => trap words
  | "wait" => wait words
  | "break" => leaveLoops false words
  | "continue" => leaveLoops true words
  | "exit" => leave .exit words
  | "return" => leave .function words
  | "umask" => umask words
  | "ulimit" => return { output := "unlimited\n" }
  | "times" => return { output := lines (List.replicate 2 "0m0.000000s 0m0.000000s") }
  | "fg" | "bg" => fail "No current job"
  | "kill" =>
    fail ("Usage: kill [-s sigspec | -signum | -sigspec] [pid | job]... or\n" ++
      "kill -l [exitstatus]")
  | _ => return {}

end Builtin

end JourneyMachine.Host.Shell
