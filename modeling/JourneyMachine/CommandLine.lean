import JourneyMachine.Heap.Dump
import JourneyMachine.Image.Codec
import JourneyMachine.Image.Load

/-!
# Command line

`run IMAGE [ARGS…]` runs the entry journey of an image, and `disasm IMAGE` (or `dis`) lists its
journeys. The limits of the machine come from options, or else from the environment. What a command
prints and the status it ends with are computed from the bytes of the image and the world.
-/

namespace JourneyMachine

open Host (World)

inductive Command where
  | run (image : String) (args : List String) (settings : Settings)
  | disassemble (image : String)
  /-- Prints the version of the program or of one of its commands. -/
  | version (name : String)
  /-- A command line that is not understood. -/
  | unusable
deriving DecidableEq, Repr

/-- What a command printed, and the status it ended with. -/
structure Report where
  output : String := ""
  errors : String := ""
  status : UInt8 := 0
  world : World := {}

namespace Command

def readCount? (text : String) : Option Nat :=
  let digits :=
    match text.toList with
    | '+' :: rest => rest
    | cs => cs
  if digits = [] ∨ ¬ digits.all Char.isDigit then none
  else
    let n := digits.foldl (fun n c => n * 10 + (c.toNat - '0'.toNat)) 0
    if n < 18446744073709551616 then some n else none

structure Options where
  heapSlots : Option Nat := none
  maxFrames : Option Nat := none
deriving DecidableEq, Repr

namespace Options

def isNumeric (name : String) : Bool := name = "heap-slots" ∨ name = "max-frames"

def set? (o : Options) (name value : String) : Option Options := do
  let n ← readCount? value
  if name = "heap-slots" then
    if o.heapSlots.isSome then none else some { o with heapSlots := some n }
  else if o.maxFrames.isSome then none
  else some { o with maxFrames := some n }

/-- A number given as an option, or else by a variable of the environment, which then has to be a
number. -/
def number? (given : Option Nat) (env : List (String × String)) (name : String) (default : Nat) :
    Option Nat :=
  match given, env.lookup name with
  | some n, _ => some n
  | none, some text => readCount? text
  | none, none => some default

def settings? (o : Options) (env : List (String × String)) : Option Settings := do
  let defaults : Settings := {}
  let heapSlots ← number? o.heapSlots env "SQUIRE_HEAP_SLOTS" defaults.heapSlots
  let maxFrames ← number? o.maxFrames env "SQUIRE_MAX_FRAMES" defaults.maxFrames
  return { defaults with heapSlots, maxFrames }

end Options

inductive Shape where
  /-- A double hyphen: no option follows. -/
  | stop
  /-- A double hyphen, a name, and possibly an equals sign and a value. -/
  | long (name : String) (value : Option String)
  /-- A hyphen and one or more letters. -/
  | short (letters : List Char)
  | plain
deriving DecidableEq, Repr

def shape (arg : String) : Shape :=
  match arg.toList with
  | ['-', '-'] => .stop
  | '-' :: '-' :: name =>
    let value := (name.dropWhile (· ≠ '=')).tail
    if name.contains '=' then
      .long (String.ofList (name.takeWhile (· ≠ '='))) (some (String.ofList value))
    else .long (String.ofList name) none
  | '-' :: c :: letters => .short (c :: letters)
  | _ => .plain

def isLetter (c : Char) : Bool := c ∈ ['v', 'V', 'h']

inductive Switch where
  | verbose
  | version
  | refused
deriving DecidableEq, Repr

/-- What letters behind one hyphen do, read from the left. The log is switched on at most once, and
asking for the version ends the reading. -/
def bundle (verbose : Bool) : List Char → Switch
  | [] => .verbose
  | 'v' :: rest => if verbose then .refused else bundle true rest
  | 'V' :: _ => .version
  | _ => .refused

/-- What a switch written in full does; none if the name is no switch. -/
def switch? (verbose : Bool) (name : String) (value : Option String) : Option Switch :=
  if name = "verbose" then some (if verbose || value.isSome then .refused else .verbose)
  else if name = "version" then some (if value.isSome then .refused else .version)
  else if name = "help" then some .refused
  else none

def runWith (env : List (String × String)) (options : Options) (image : String)
    (args : List String) : Command :=
  match options.settings? env with
  | some settings => if image = "" then unusable else run image args settings
  | none => unusable

/-- Reads the arguments of `run`. After the image an option that is not known is the program's
first argument; once the program has its first argument all that follows is the program's, and so
is everything after a double hyphen. -/
def parseRun (env : List (String × String)) :
    Bool → Options → Option String → List String → Command
  | _, options, some image, [] => runWith env options image []
  | _, _, none, [] => unusable
  | verbose, options, image, arg :: rest =>
    let switched (switch : Switch) : Command :=
      match switch with
      | .verbose => parseRun env true options image rest
      | .version => version "squire-run"
      | .refused => unusable
    match shape arg, image with
    | .stop, some image => runWith env options image rest
    | .stop, none =>
      match rest with
      | image :: args => runWith env options image args
      | [] => unusable
    | .long name value, image =>
      match switch? verbose name value with
      | some switch => switched switch
      | none =>
        if Options.isNumeric name then
          match value with
          | some value =>
            match options.set? name value with
            | some options => parseRun env verbose options image rest
            | none => unusable
          | none =>
            match rest with
            | value :: rest =>
              match options.set? name value with
              | some options => parseRun env verbose options image rest
              | none => unusable
            | [] => unusable
        else
          match image with
          | some image => runWith env options image (arg :: rest)
          | none => unusable
    | .short letters, some image =>
      if letters.all isLetter then switched (bundle verbose letters)
      else runWith env options image (arg :: rest)
    | .short letters, none => switched (bundle verbose letters)
    | .plain, some image => runWith env options image (arg :: rest)
    | .plain, none => parseRun env verbose options (some arg) rest

def listOne : List String → Command
  | [image] => if image = "" then unusable else disassemble image
  | _ => unusable

def parseDisassemble : Bool → List String → List String → Command
  | _, images, [] => listOne images
  | verbose, images, arg :: rest =>
    let switched (switch : Switch) : Command :=
      match switch with
      | .verbose => parseDisassemble true images rest
      | .version => version "squire-disasm"
      | .refused => unusable
    match shape arg with
    | .stop => listOne (images ++ rest)
    | .long name value => ((switch? verbose name value).map switched).getD unusable
    | .short letters => switched (bundle verbose letters)
    | .plain => if images = [] then parseDisassemble verbose [arg] rest else unusable

def parseWith (env : List (String × String)) : Bool → List String → Command
  | _, [] => unusable
  | verbose, arg :: rest =>
    let switched (switch : Switch) : Command :=
      match switch with
      | .verbose => parseWith env true rest
      | .version => version "squire"
      | .refused => unusable
    match shape arg with
    | .stop => unusable
    | .long name value => ((switch? verbose name value).map switched).getD unusable
    | .short letters => switched (bundle verbose letters)
    | .plain =>
      if arg = "run" then parseRun env false {} none rest
      else if arg = "disasm" ∨ arg = "dis" then parseDisassemble false [] rest
      else unusable

def parse (env : List (String × String)) (args : List String) : Command :=
  parseWith env false args

def image? : Command → Option String
  | run image _ _ | disassemble image => some image
  | version _ | unusable => none

def emphasize (text : String) : String :=
  "\x1b[1m\x1b[31m" ++ text ++ "\x1b[39m\x1b[0m"

/-- What is printed about a fault. An exit prints nothing. -/
def complaint : Fault → String
  | .exit _ => ""
  | .uncaught dump => emphasize "uncaught exception encountered:" ++ " " ++ dump ++ "\n"
  | fault => emphasize "Error" ++ ": " ++ fault.message ++ "\n"

def failed (fault : Fault) (output : String) (world : World) : Report :=
  { output, errors := complaint fault, status := fault.exitStatus, world }

/-- The listings of journeys, each followed by an empty line, up to the first that fails. -/
def listAll (heap : Heap) : List Value → String × Option Fault
  | [] => ("", none)
  | v :: rest =>
    match heap.listing v with
    | .error fault => ("", some fault)
    | .ok listing =>
      let (others, fault) := listAll heap rest
      (listing ++ "\n" ++ others, fault)

def boot (settings : Settings) (bytes : Except Trouble ByteArray) (world : World) :
    Except Fault (Machine × List Value) := do
  let bytes ← bytes.mapError Fault.host
  let image ← Image.decode bytes.data.toList
  let m ← Machine.start settings world
  match m.run image.load with
  | .ok journeys m => return (m, journeys)
  | .error (.fatal fault) _ => .error fault
  | .error _ _ => .error .tooDeep

def execute (command : Command) (bytes : Except Trouble ByteArray) (world : World) : Report :=
  match command with
  | unusable => { status := 2, world }
  | version name => { output := name ++ " 0.1.0\n", world }
  | disassemble _ =>
    match boot {} bytes world with
    | .error fault => failed fault "" world
    | .ok (m, journeys) =>
      match listAll m.heap journeys with
      | (output, none) => { output, world }
      | (output, some fault) => failed fault output world
  | run _ args settings =>
    match boot settings bytes world with
    | .error fault => failed fault "" world
    | .ok (m, _) =>
      match m.run (Run.runMain args) with
      | .ok _ m => { output := m.world.output, world := m.world }
      | .error (.fatal fault) m => failed fault m.world.output m.world
      | .error _ m => failed .tooDeep m.world.output m.world

end Command

end JourneyMachine
