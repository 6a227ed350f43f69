import JourneyMachine.Host.Programs.Cat
import JourneyMachine.Host.Programs.Printf
import JourneyMachine.Host.Programs.Test
import JourneyMachine.Host.Shell.Builtins
import JourneyMachine.Host.Shell.Redirection

/-!
# Engines

Commands run one inside the other: functions call functions, words contain commands, and shells
start shells. An `Engine` is what a command needs to run others. Here are the ways to run something
inside a command: a program, a shell of its own, a round of a loop.
-/

namespace JourneyMachine.Host.Shell

structure Engine where
  /-- Runs a command; the flag tells that its failure is looked at. -/
  run : Bool → Command → Act Unit
  /-- Runs a script; whether it held any command. The flag is as for a command. -/
  script : Bool → String → Act Bool
  /-- Runs a shell as a program of the given name with the given words. -/
  shell : String → List String → Act Unit

/-- A program by the name of its file, apart from the shell. It goes by the name it was called. -/
def plainProgram? (file self : String) (words : List String) : Option (Program Nat) :=
  match file with
  | "cat" => some (Cat.run self words)
  | "echo" => some (Program.emit self (Echo.output words) 0)
  | "printf" => some (Printf.run self words)
  | "true" => some (return 0)
  | "false" => some (return 1)
  | "test" => some (Test.run self false words)
  | "[" => some (Test.run self true words)
  | _ => none

namespace Act

def noProgram (name reason : String) (status : Nat) : Act Unit := do
  warn (name ++ ": " ++ reason)
  setStatus status

def runFile (e : Engine) (self file : String) (words : List String) : Act Unit := do
  let s ← get
  match s.system.resolve s.directory (ofOctets file) with
  | .error .noSuchFile | .error .notDirectory => noProgram self "not found" 127
  | .error .nameTooLong => noProgram self (Trouble.reason .nameTooLong) 127
  | .error trouble => noProgram self trouble.reason 126
  | .ok (path, _) =>
    match s.system.find? path with
    | some (.program name) =>
      match plainProgram? name self words with
      | some p =>
        if exceedsLimit (self :: words) String.length then
          noProgram self (Trouble.reason .argumentTooLong) 126
        else program p
      | none => e.shell self words
    | some _ => noProgram self (Trouble.reason .permissionDenied) 126
    | none => noProgram self "not found" 127

/-- Runs a program by name, which is looked for unless a slash says where it is. -/
def runProgram (e : Engine) (name path : String) (words : List String) : Act Unit := do
  let s ← get
  if name.toList.contains '/' then runFile e name name words
  else
    match Builtin.locate? s path name with
    | some file =>
      set { s with located := name :: s.located.filter (· ≠ name) }
      runFile e name file words
    | none =>
      let hidden := (path.splitOn ":").any fun directory =>
        let file := if directory = "" then name else directory ++ "/" ++ name
        match s.system.resolve s.directory (ofOctets file) with
        | .ok (path, _) => (s.system.find? path).isSome
        | .error _ => false
      noProgram name (if hidden then Trouble.reason .permissionDenied else "not found") 127

/-- Runs what is due when the shell is left. The status stays as it is, unless the script for it
leaves the shell with another one. -/
def farewell (e : Engine) : Act Unit := do
  let s ← get
  match s.traps.lookup "EXIT" with
  | none => return
  | some action =>
    set { s with traps := s.traps.filter fun (name, _) => name ≠ "EXIT" }
    match (e.script false action) (← get) with
    | .ok _ t => set { t with status := s.status }
    | .error .exit t => set t
    | .error _ t => set { t with status := s.status }

def toEnd (e : Engine) (body : Act Unit) : Act Unit := do
  match body (← get) with
  | .ok _ t => set t
  | .error .exhausted t =>
    set t
    throw .exhausted
  | .error _ t => set t
  farewell e

/-- Runs a step in a shell of its own: only the system and the status show what it did. -/
def isolated (e : Engine) (body : Act Unit) : Act Unit := do
  let s ← get
  set { s with traps := [] }
  let keep (t : Shell) : Shell :=
    { s with system := t.system, documents := t.documents, status := t.status % 256 }
  ensuring (toEnd e body) keep

def substitute (e : Engine) : Substitute
  | none => return ""
  | some command => do
    let s ← get
    let (stream, system) := s.system.addPipe
    set { s with system }
    isolated e do
      bindDescriptor 1 { stream, writable := true }
      e.run false command
    let t ← get
    set { t with status := s.status, substituted := t.status }
    return octets (t.system.drain stream)

/-- Runs the stages of a pipeline, each with the output of the one before as its input. All of them
start with the status from before the pipeline. -/
def runStages (e : Engine) (tested : Bool) (status : Nat) : Option Nat → List Command → Act Unit
  | _, [] => return
  | input, command :: rest => do
    let s ← get
    let (stream, system) := s.system.addPipe
    set { s with system, status }
    isolated e do
      match input with
      | some stream => bindDescriptor 0 { stream, readable := true }
      | none => pure ()
      if !rest.isEmpty then bindDescriptor 1 { stream, writable := true }
      e.run tested command
    runStages e tested status (some stream) rest

def runBehind (e : Engine) (command : Command) : Act Unit := do
  isolated e do
    bindDescriptor 0 (← textDescriptor "")
    e.run false command
  modify fun s => { s with background := some s.status, status := 0 }

inductive Round where
  | next
  | over

/-- Runs a round of a loop, which may leave this loop or go on with its next round. -/
def round (body : Act Unit) : Act Round := fun s =>
  match body s with
  | .ok _ s => .ok .next s
  | .error (.loops count again) s =>
    if 1 < count then .error (.loops (count - 1) again) s
    else .ok (if again then .next else .over) s
  | .error leave s => .error leave s

def inLoop (body : Act Unit) : Act Unit := do
  modify fun s => { s with loops := s.loops + 1 }
  ensuring body fun s => { s with loops := s.loops - 1 }

def rounds (e : Engine) (tested sense : Bool) (condition body : Command) : Nat → Nat → Act Unit
  | 0, _ => throw .exhausted
  | room + 1, status => do
    let s ← get
    match e.run true condition s with
    | .error (.loops 1 true) s =>
      set s
      rounds e tested sense condition body room status
    | .error (.loops 1 false) s => set { s with status }
    | .error (.loops count again) s =>
      set s
      throw (.loops (count - 1) again)
    | .error leave s =>
      set s
      throw leave
    | .ok _ s =>
      set s
      if (s.status = 0) = sense then
        match ← round (e.run tested body) with
        | .next => rounds e tested sense condition body room (← get).status
        | .over => return
      else setStatus status

def runEach (e : Engine) (tested : Bool) (name : String) (body : Command) :
    List String → Act Unit
  | [] => return
  | value :: rest => do
    assign name value
    match ← round (e.run tested body) with
    | .next => runEach e tested name body rest
    | .over => return

def runCases (e : Engine) (tested : Bool) (text : List Char) :
    List (List Word × Option Command) → Act Unit
  | [] => setStatus 0
  | (patterns, body) :: rest => do
    let fits ← patterns.anyM fun pattern => do
      return Glob.fits (← expandPattern (substitute e) pattern) text
    if fits then
      match body with
      | some command => e.run tested command
      | none => setStatus 0
    else runCases e tested text rest

end Act

end JourneyMachine.Host.Shell
