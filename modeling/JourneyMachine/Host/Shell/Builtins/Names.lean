import JourneyMachine.Host.Shell.Builtins.Basic
import JourneyMachine.Host.Shell.Builtins.Variables

namespace JourneyMachine.Host.Shell

namespace Builtin

open Act

def locate? (s : Shell) (path name : String) : Option String :=
  (path.splitOn ":").findSome? fun directory =>
    let file := if directory = "" then name else directory ++ "/" ++ name
    match s.system.entry? s.directory (ofOctets file) with
    | some (.program _) => some file
    | _ => none

def path : Act String := return (← value? "PATH").getD ""

def describe (long : Bool) (name : String) : Act Reply := do
  let s ← get
  let told (sentence short : String) : Act Reply :=
    return { output := (if long then name ++ " is " ++ sentence else short) ++ "\n" }
  if name ∈ keywords then told "a shell keyword" name
  else
    match s.aliases.lookup name with
    | some value =>
      told ("an alias for " ++ value) ("alias " ++ name ++ "=" ++ singleQuoted value)
    | none =>
      if (s.functions.lookup name).isSome then told "a shell function" name
      else if isSpecial name then told "a special shell builtin" name
      else if isBuiltin name then told "a shell builtin" name
      else
        let file? :=
          if name.toList.contains '/' then (s.system.entry? s.directory (ofOctets name)).map
            fun _ => name
          else locate? s ((s.bindings.lookup "PATH").bind (·.value) |>.getD "") name
        match file? with
        | none => return { output := if long then name ++ ": not found\n" else "", status := 127 }
        | some file =>
          if name.toList.contains '/' then told file file
          else
            set { s with located := name :: s.located.filter (· ≠ name) }
            told (if name ∈ s.located then "a tracked alias for " ++ file else file) file

def type (words : List String) : Act Reply := do
  words.foldlM (fun (reply : Reply) name => do
    let more ← describe true name
    return { output := reply.output ++ more.output, status := reply.status ||| more.status }) {}

/-- Says what a name stands for, where `command` runs nothing. -/
def command (words : List String) : Act Reply := do
  let (found, words) ← flags ['p', 'v', 'V'] words
  match found.find? (· ≠ 'p'), words with
  | some option, name :: _ => describe (option = 'V') name
  | _, _ => return {}

def defineAliases (words : List String) : Act Reply := do
  let shown (name value : String) : String := name ++ "=" ++ singleQuoted value
  if words.isEmpty then
    return { output := lines ((← get).aliases.map fun (name, value) => shown name value) }
  words.foldlM (fun (reply : Reply) word => do
    match sides word with
    | (name, some value) =>
      modify fun s =>
        { s with aliases := s.aliases.filter (fun (n, _) => n ≠ name) ++ [(name, value)] }
      return reply
    | (name, none) =>
      match (← get).aliases.lookup name with
      | some value => return { reply with output := reply.output ++ shown name value ++ "\n" }
      | none =>
        discard (write 2 ("alias: " ++ name ++ " not found\n"))
        return { reply with status := 1 }) {}

def unalias (words : List String) : Act Reply := do
  let (found, words) ← flags ['a'] words
  if !found.isEmpty then
    modify fun s => { s with aliases := [] }
    return {}
  words.foldlM (fun (reply : Reply) name => do
    if ((← get).aliases.lookup name).isSome then
      modify fun s => { s with aliases := s.aliases.filter fun (n, _) => n ≠ name }
      return reply
    else
      discard (write 2 ("unalias: " ++ name ++ " not found\n"))
      return { reply with status := 1 }) {}

end Builtin

end JourneyMachine.Host.Shell
