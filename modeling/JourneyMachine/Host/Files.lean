import JourneyMachine.Fault
import JourneyMachine.Host.Entry

/-!
# Files

The files a program works with, as data. A regular file has a number under which its content is
kept, so that an open file stays valid while other files come and go; an open file remembers its
own position.
-/

namespace JourneyMachine.Host

/-- Files and directories: their places, and the contents of the regular files by number. -/
structure Files where
  entries : List (List String × Entry) := []
  contents : Array ByteArray := #[]
deriving Inhabited

/-- What may be done with a file that is opened, and what opening it does. -/
structure Access where
  readable : Bool := false
  writable : Bool := false
  /-- Every write goes to the end. -/
  appends : Bool := false
  /-- A missing file is made. -/
  creates : Bool := false
  /-- The old content is dropped. -/
  truncates : Bool := false
deriving DecidableEq, Repr

structure OpenFile where
  entry : Entry
  access : Access
  position : Nat := 0
deriving DecidableEq, Repr

namespace Access

/-- The access a mode asks for: `r`, `w` or `a`, optionally followed by `+`. Every `b` in the
mode is passed over. -/
def ofMode? (mode : String) : Option Access :=
  match mode.toList.filter (· ≠ 'b') with
  | ['r'] => some { readable := true }
  | ['r', '+'] => some { readable := true, writable := true }
  | ['w'] => some { writable := true, creates := true, truncates := true }
  | ['w', '+'] => some { readable := true, writable := true, creates := true, truncates := true }
  | ['a'] => some { writable := true, appends := true, creates := true }
  | ['a', '+'] => some { readable := true, writable := true, appends := true, creates := true }
  | _ => none

end Access

namespace Files

def content (files : Files) (number : Nat) : ByteArray :=
  files.contents.getD number .empty

def setContent (files : Files) (number : Nat) (bytes : ByteArray) : Files :=
  { files with contents := files.contents.setIfInBounds number bytes }

def find? (files : Files) (path : List String) : Option Entry :=
  ((files.entries.find? fun (name, _) => name = path).map (·.2)).or (Entry.fixed? path)

/-- Adds a regular file at a place, or replaces the content of the one there. -/
def putAt (files : Files) (path : List String) (bytes : ByteArray) : Files :=
  match files.find? path with
  | some (.file number) => files.setContent number bytes
  | some _ => files
  | none =>
    { entries := files.entries ++ [(path, .file files.contents.size)]
      contents := files.contents.push bytes }

def put (files : Files) (path : List String) (bytes : ByteArray) : Files :=
  files.putAt (Entry.workplace ++ path) bytes

def putDirectory (files : Files) (path : List String) : Files :=
  let path := Entry.workplace ++ path
  match files.find? path with
  | some _ => files
  | none => { files with entries := files.entries ++ [(path, .directory)] }

def topLevel (files : Files) : List (String × ByteArray) :=
  files.entries.filterMap fun (path, entry) =>
    match after? Entry.workplace path, entry with
    | some [name], .file number => some (name, files.content number)
    | _, _ => none

/-- Walks from a directory down the given components. Every component but the last one must be a
directory; the last one may be missing. Above the root is the root. -/
def walk (files : Files) (here : List String) : List String → Except Trouble (List String)
  | [] => .ok here
  | component :: rest =>
    if 255 < component.utf8ByteSize then .error .nameTooLong
    else if component = "." then files.walk here rest
    else if component = ".." then files.walk here.dropLast rest
    else
      let next := here ++ [component]
      match files.find? next, rest with
      | some .directory, _ => files.walk next rest
      | some _, [] => .ok next
      | some _, _ :: _ => .error .notDirectory
      | none, [] => .ok next
      | none, _ :: _ => .error .noSuchFile

/-- The place a name leads to from a directory, and whether the name insists on a directory by
ending in a slash. -/
def resolve (files : Files) (here : List String) (name : String) :
    Except Trouble (List String × Bool) :=
  let cs := name.toList
  if cs.contains '\x00' then .error .nulInName
  else if cs = [] then .error .noSuchFile
  else if 4095 < name.utf8ByteSize then .error .nameTooLong
  else do
    let components := (name.splitOn "/").filter (· ≠ "")
    let path ← files.walk (if cs.head? = some '/' then [] else here) components
    return (path, cs.getLast? = some '/')

def entry? (files : Files) (here : List String) (name : String) : Option Entry :=
  match files.resolve here name with
  | .error _ => none
  | .ok (path, slash) =>
    match files.find? path with
    | some .directory => some .directory
    | found => if slash then none else found

/-- Opens a name from a directory: what it stands for, and the files once old content is dropped or
a missing file is made. -/
def openEntry (files : Files) (here : List String) (name : String) (access : Access) :
    Except Trouble (Entry × Files) := do
  let (path, slash) ← files.resolve here name
  match files.find? path with
  | some .directory =>
    if access.writable || access.creates then .error .isDirectory else return (.directory, files)
  | some entry =>
    if slash then .error (if access.creates then .isDirectory else .notDirectory)
    else
      match entry with
      | .file number =>
        return (entry, if access.truncates then files.setContent number .empty else files)
      | .program _ =>
        if access.writable then .error .permissionDenied else return (entry, files)
      | _ => return (entry, files)
  | none =>
    if !access.creates then .error .noSuchFile
    else if slash then .error .isDirectory
    else return (.file files.contents.size, files.putAt path .empty)

def openFile (files : Files) (name : String) (access : Access) :
    Except Trouble (OpenFile × Files) := do
  let (entry, files) ← files.openEntry Entry.workplace name access
  return ({ entry, access }, files)

def read (files : Files) (name : String) : Except Trouble ByteArray := do
  let (file, _) ← files.openFile name { readable := true }
  match file.entry with
  | .directory => .error .isDirectory
  | .file number => return files.content number
  | _ => return .empty

end Files

namespace OpenFile

def readable (file : OpenFile) (files : Files) : Except Trouble ByteArray :=
  if !file.access.readable then .error .badDescriptor
  else
    match file.entry with
    | .directory => .error .isDirectory
    | .file number => .ok (files.content number)
    | _ => .ok .empty

def read (file : OpenFile) (files : Files) (amount : Nat) :
    Except Trouble (ByteArray × OpenFile) := do
  let bytes ← file.readable files
  let piece := bytes.extract file.position (min bytes.size (file.position + amount))
  return (piece, { file with position := file.position + piece.size })

def readAll (file : OpenFile) (files : Files) : Except Trouble (ByteArray × OpenFile) := do
  let bytes ← file.readable files
  file.read files bytes.size

/-- The number of bytes up to and including the first line feed, or all of them. -/
def lineLength : List UInt8 → Nat
  | [] => 0
  | b :: rest => if b = 10 then 1 else 1 + lineLength rest

def readLine (file : OpenFile) (files : Files) : Except Trouble (ByteArray × OpenFile) := do
  let bytes ← file.readable files
  file.read files (lineLength (bytes.extract file.position bytes.size).toList)

/-- The content with bytes written at a position; a gap is filled with zero bytes. -/
def overwrite (bytes : ByteArray) (position : Nat) (piece : ByteArray) : ByteArray :=
  let gap : ByteArray := ⟨Array.replicate (position - bytes.size) 0⟩
  bytes.extract 0 position ++ gap ++ piece ++ bytes.extract (position + piece.size) bytes.size

/-- Writes bytes at the position, or at the end of a file that appends. Writing nothing never
fails. -/
def write (file : OpenFile) (files : Files) (piece : ByteArray) :
    Except Trouble (OpenFile × Files) :=
  if piece.size = 0 then .ok (file, files)
  else if !file.access.writable then .error .badDescriptor
  else
    match file.entry with
    | .directory => .error .badDescriptor
    | .file number =>
      let bytes := files.content number
      let position := if file.access.appends then bytes.size else file.position
      .ok ({ file with position := position + piece.size },
        files.setContent number (overwrite bytes position piece))
    | _ => .ok (file, files)

inductive Origin where
  | start
  | current
  | finish
deriving DecidableEq, Repr

/-- Where an open file ends, and the greatest position it can have. A directory ends at its greatest
position, and a device has neither. -/
def extent? (file : OpenFile) (files : Files) : Option (Nat × Nat) :=
  match file.entry with
  | .directory => some (9223372036854775807, 9223372036854775807)
  | .file number => some ((files.content number).size, 17592186040320)
  | _ => none

/-- Moves the position, which may lie beyond the end of the content and not before the start. A
device has only one. -/
def seek (file : OpenFile) (files : Files) (offset : Int) (origin : Origin) :
    Except Trouble OpenFile :=
  match file.extent? files with
  | none => .ok { file with position := 0 }
  | some (finish, greatest) =>
    let base : Int :=
      match origin with
      | .start => 0
      | .current => file.position
      | .finish => finish
    let target := base + offset
    if target < 0 ∨ greatest < target then .error .invalidArgument
    else .ok { file with position := target.toNat }

end OpenFile

end JourneyMachine.Host
