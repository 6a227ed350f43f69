import JourneyMachine.Host.Programs.Basic
import JourneyMachine.Host.Shell.Lines

/-!
# The state of a shell

Variables, parameters, options, functions and descriptors of one shell, together with the system it
shares with everything it starts. A step of a shell may leave what it is in: the shell, a loop or a
function.
-/

namespace JourneyMachine.Host

namespace Shell

/-- A variable; one without a value is only marked. -/
structure Variable where
  value : Option String := none
  exported : Bool := false
  locked : Bool := false
deriving DecidableEq, Repr

/-- The options of a shell with their letters, in the order in which they are listed. -/
def optionNames : List (String × Option Char) :=
  [("errexit", some 'e'), ("noglob", some 'f'), ("ignoreeof", some 'I'), ("interactive", some 'i'),
   ("monitor", some 'm'), ("noexec", some 'n'), ("stdin", some 's'), ("xtrace", some 'x'),
   ("verbose", some 'v'), ("vi", some 'V'), ("emacs", some 'E'), ("noclobber", some 'C'),
   ("allexport", some 'a'), ("notify", some 'b'), ("nounset", some 'u'), ("privileged", some 'p'),
   ("nolog", none), ("debug", none)]

inductive Leave where
  /-- The shell. -/
  | exit
  /-- Whatever an error ends: the shell, or a command that guards against it. -/
  | error
  /-- So many loops; the last of them goes on with its next round if `again` says so. -/
  | loops (count : Nat) (again : Bool)
  /-- A function or a script that was read in. -/
  | function
  /-- The commands nest too deeply. -/
  | exhausted
deriving DecidableEq, Repr

end Shell

structure Shell where
  system : System
  /-- The name messages start with, which is parameter zero. -/
  name : String := "sh"
  parameters : List String := []
  bindings : List (String × Shell.Variable) := []
  functions : List (String × Shell.Command) := []
  aliases : List (String × String) := []
  /-- The options that are set, by name. -/
  options : List String := []
  descriptors : Descriptors := []
  directory : List String := Entry.workplace
  /-- The status of the last command. -/
  status : Nat := 0
  /-- The status of the last command that a word of this command contained. -/
  substituted : Nat := 0
  /-- The line that messages name. -/
  line : Nat := 1
  /-- The line up to which the script was read. -/
  readTo : Nat := 1
  /-- The builtin at work. -/
  builtin : Option String := none
  /-- How many loops are around the current command. -/
  loops : Nat := 0
  /-- Whether the shell is inside a function. -/
  inFunction : Bool := false
  /-- The variables that are local to the functions around, with what they were before. -/
  locals : List (List (String × Option Shell.Variable)) := []
  /-- What is done when the shell is left, and on signals, by the name of the signal. -/
  traps : List (String × String) := []
  /-- The texts of documents by number. -/
  documents : Array Shell.Word := #[]
  /-- How many parts of words were set apart for splitting. -/
  regions : Nat := 0
  /-- The status of the last command in the background, if any. -/
  background : Option Nat := none
  /-- How far the letters of an option word have been read. -/
  optionOffset : Nat := 0
  /-- The programs that were found before. -/
  located : List String := []
  /-- The rights that new files lack. -/
  mask : Nat := 18

namespace Shell

abbrev Act := EStateM Leave Shell

namespace Act

def write (number : Nat) (text : String) : Act Bool := do
  let s ← get
  match s.descriptors.find? number with
  | none => return false
  | some d =>
    match s.system.write d (bytesOf text) with
    | .error _ => return false
    | .ok system =>
      set { s with system }
      return true

/-- Writes a message: the name of the shell, the line, the builtin at work, and the text. -/
def warn (text : String) : Act Unit := do
  let s ← get
  let builtin := match s.builtin with
    | some name => name ++ ": "
    | none => ""
  discard (write 2 (s.name ++ ": " ++ toString s.line ++ ": " ++ builtin ++ text ++ "\n"))

def setStatus (status : Nat) : Act Unit := modify fun s => { s with status }

def fail {α : Type} (text : String) : Act α := do
  warn text
  setStatus 2
  throw .error

def hasOption (name : String) : Act Bool := return name ∈ (← get).options

def setOption (name : String) (on : Bool) : Act Unit :=
  modify fun s =>
    let others := s.options.filter (· ≠ name)
    { s with options := if on then name :: others else others }

def getVariable? (name : String) : Act (Option Variable) := return (← get).bindings.lookup name

def value? (name : String) : Act (Option String) := return (← getVariable? name).bind (·.value)

def store (name : String) (v : Option Variable) : Act Unit :=
  modify fun s =>
    { s with
      bindings :=
        match v with
        | none => s.bindings.filter fun (n, _) => n ≠ name
        | some v =>
          if s.bindings.any fun (n, _) => n = name then
            s.bindings.map fun (n, old) => (n, if n = name then v else old)
          else s.bindings ++ [(name, v)] }

def setVariable (name : String) (value : Option String) (exported : Bool) (locked : Bool) :
    Act Unit := do
  if !isName name.toList then fail (name ++ ": bad variable name")
  let old := (← getVariable? name).getD {}
  if old.locked && value.isSome then fail (name ++ ": is read only")
  let exported := exported || old.exported || (value.isSome && (← hasOption "allexport"))
  store name (some { value := value.or old.value, exported, locked := locked || old.locked })
  if name = "OPTIND" && value.isSome then modify fun s => { s with optionOffset := 0 }

def assign (name value : String) : Act Unit := setVariable name (some value) false false

def separators : Act (List Char) := do
  return ((← value? "IFS").getD " \t\n").toList

def environment (s : Shell) : List (String × String) :=
  s.bindings.filterMap fun (name, v) => if v.exported then v.value.map (name, ·) else none

def program (p : Program Nat) : Act Unit := do
  let s ← get
  let process : Process :=
    { descriptors := s.descriptors, directory := s.directory, environment := environment s }
  let (status, system) := (p.run process).run s.system
  set { s with system, status }

/-- Runs a step and then restores something, whichever way the step ends. -/
def ensuring {α : Type} (body : Act α) (restore : Shell → Shell) : Act α := fun s =>
  match body s with
  | .ok a s => .ok a (restore s)
  | .error leave s => .error leave (restore s)

/-- A text between single quotes, in which single quotes stand between double quotes. -/
def singleQuoted (text : String) : String :=
  let rec go : List Char → Bool → List Char
    | [], true => ['"']
    | [], false => ['\x27']
    | c :: rest, inDouble =>
      if c = '\x27' then
        if inDouble then c :: go rest true else '\x27' :: '"' :: c :: go rest true
      else if inDouble then '"' :: '\x27' :: c :: go rest false
      else c :: go rest false
  String.ofList ('\x27' :: go text.toList false)

end Act

end Shell

end JourneyMachine.Host
