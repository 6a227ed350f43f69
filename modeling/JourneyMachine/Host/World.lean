import JourneyMachine.Host.Commands
import JourneyMachine.Text.Utf8

/-!
# World

The system that a machine runs on. A platform answers requests, and nothing is assumed of the
answers: it may return anything, fail at any time, and change what it keeps either way.
`Platform.posix` is one with files, a shell and a few programs.
-/

namespace JourneyMachine.Host

/-- What a platform keeps from one request to the next: the input that is left, the output written
so far, and the files. -/
structure Surroundings where
  input : List UInt8 := []
  output : String := ""
  outputBroken : Bool := false
  files : Files := {}
deriving Inhabited

abbrev Exchange := EStateM Trouble Surroundings

/-- What a subprocess wrote to its output and to its error stream. -/
structure Captured where
  output : List UInt8 := []
  errors : List UInt8 := []

/-- What a machine can ask for. An open file is what the platform gave out for it, and is handed
back to the platform with every request about that file. A platform that counts the requests in what
it keeps can give any sequence of answers. -/
structure Platform where
  write : String → Exchange Unit
  flush : Exchange Unit
  /-- The bytes of the next line with its line feed, none at the end of the input. -/
  readLine : Exchange (List UInt8)
  /-- Runs a program on an input with arguments, and waits for its end. -/
  spawn : List UInt8 → String → List String → Exchange Captured
  openFile : String → Access → Exchange OpenFile
  /-- At most so many bytes of a file. -/
  readFile : OpenFile → Nat → Exchange (ByteArray × OpenFile)
  /-- A file through its next line feed. -/
  readFileLine : OpenFile → Exchange (ByteArray × OpenFile)
  /-- All that is left of a file. -/
  readFileRest : OpenFile → Exchange (ByteArray × OpenFile)
  writeFile : OpenFile → ByteArray → Exchange OpenFile
  seekFile : OpenFile → Int → OpenFile.Origin → Exchange (Nat × OpenFile)
  tellFile : OpenFile → Exchange Nat

namespace Platform

/-- A line without the line feed at its end, and without a carriage return before that. -/
def chomp (line : String) : String :=
  match line.toList.reverse with
  | '\n' :: '\r' :: rest => String.ofList rest.reverse
  | '\n' :: rest => String.ofList rest.reverse
  | _ => line

def print (p : Platform) (text : String) (newline : Bool) : Exchange Unit := do
  p.write text
  if newline then p.write "\n"
  p.flush

/-- Reads a line of the input, which is empty at its end. A line that is not UTF-8 is used up all
the same. -/
def readText (p : Platform) : Exchange String := do
  match Text.decode? (← p.readLine) with
  | some line => return chomp line
  | none => throw .notUtf8

/-- A request that looks at the files and leaves everything else alone. -/
def onFiles {α : Type} (request : Files → Except Trouble (α × Files)) : Exchange α := fun s =>
  match request s.files with
  | .ok (a, files) => .ok a { s with files }
  | .error trouble => .error trouble s

def nextLine : List UInt8 → List UInt8 × List UInt8
  | [] => ([], [])
  | b :: rest =>
    if b = 10 then ([b], rest)
    else
      let (line, after) := nextLine rest
      (b :: line, after)

/-- A broken output takes no bytes, and writing none never fails. -/
def posix : Platform where
  write text := fun s =>
    if text = "" then .ok () s
    else if s.outputBroken then .error .brokenOutput s
    else .ok () { s with output := s.output ++ text }
  flush := pure ()
  readLine := fun s =>
    let (line, rest) := nextLine s.input
    .ok line { s with input := rest }
  spawn input name args := onFiles fun files => do
    let ran ← Command.spawn files input name args
    return ({ output := ran.output, errors := ran.errors }, ran.files)
  openFile name access := onFiles (·.openFile name access)
  readFile file amount := onFiles fun files => return (← file.read files amount, files)
  readFileLine file := onFiles fun files => return (← file.readLine files, files)
  readFileRest file := onFiles fun files => return (← file.readAll files, files)
  writeFile file bytes := onFiles (file.write · bytes)
  seekFile file offset origin := onFiles fun files => do
    let file ← file.seek files offset origin
    return ((file.position, file), files)
  tellFile file := return file.position

end Platform

structure World extends Surroundings where
  platform : Platform := .posix

def World.ask {α : Type} (w : World) (request : Platform → Exchange α) :
    Except Trouble α × World :=
  match request w.platform w.toSurroundings with
  | .ok a kept => (.ok a, { w with toSurroundings := kept })
  | .error trouble kept => (.error trouble, { w with toSurroundings := kept })

end JourneyMachine.Host
