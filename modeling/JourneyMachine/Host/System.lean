import JourneyMachine.Host.Files
import JourneyMachine.Text.Utf8

/-!
# System

What the programs started by a machine share: the files, and the streams that descriptors stand
for. Descriptors made from one another share a stream and with it the position in a file.
-/

namespace JourneyMachine.Host

/-- Bytes as a text with one character for each, so that they can be compared with plain letters. -/
def octets (bytes : List UInt8) : String :=
  String.ofList (bytes.map fun b => Char.ofNat b.toNat)

def bytesOf (text : String) : List UInt8 :=
  text.toList.map fun c => UInt8.ofNat c.toNat

def toOctets (text : String) : String := octets (Text.encode text)

def ofOctets (text : String) : String := Text.decodeLossy (bytesOf text)

inductive Stream where
  /-- Always at its end; takes everything. -/
  | void
  /-- Bytes that were written, of which the first `taken` were read. -/
  | pipe (bytes : ByteArray) (taken : Nat)
  | file (file : OpenFile)
deriving Inhabited

structure Descriptor where
  stream : Nat
  readable : Bool := false
  writable : Bool := false
deriving DecidableEq, Repr

abbrev Descriptors := List (Nat × Descriptor)

structure System where
  files : Files
  streams : Array Stream := #[]
deriving Inhabited

namespace Descriptors

def find? (table : Descriptors) (number : Nat) : Option Descriptor :=
  table.lookup number

def close (table : Descriptors) (number : Nat) : Descriptors :=
  table.filter fun (n, _) => n ≠ number

def bind (table : Descriptors) (number : Nat) (d : Descriptor) : Descriptors :=
  (number, d) :: close table number

end Descriptors

namespace System

def find? (s : System) (path : List String) : Option Entry := s.files.find? path

/-- The place a name leads to from a directory, and whether the name insists on a directory. -/
def resolve (s : System) (here : List String) (name : String) :
    Except Trouble (List String × Bool) :=
  s.files.resolve here name

def entry? (s : System) (here : List String) (name : String) : Option Entry :=
  s.files.entry? here name

def entries (s : System) (directory : List String) : List String :=
  s.files.entries.filterMap fun (path, _) =>
    match after? directory path with
    | some [name] => some name
    | _ => none

def add (s : System) (stream : Stream) : Nat × System :=
  (s.streams.size, { s with streams := s.streams.push stream })

def addPipe (s : System) : Nat × System := s.add (.pipe .empty 0)

def stream (s : System) (number : Nat) : Stream := s.streams.getD number .void

def setStream (s : System) (number : Nat) (stream : Stream) : System :=
  { s with streams := s.streams.setIfInBounds number stream }

/-- Opens a name for a process with the given descriptors. A device that stands for a descriptor
gives a new way to the same pipe, or to the start of the same file. -/
def openName (s : System) (here : List String) (table : Descriptors) (name : String)
    (access : Access) : Except Trouble (Descriptor × System) := do
  let (entry, files) ← s.files.openEntry here name access
  let s := { s with files }
  let fresh (stream : Stream) (s : System) : Descriptor × System :=
    let (number, s) := s.add stream
    ({ stream := number, readable := access.readable, writable := access.writable }, s)
  match entry with
  | .directory | .file _ => return fresh (.file { entry, access }) s
  | .void | .program _ => return fresh .void s
  | .descriptor number =>
    match table.find? number with
    | none => .error .noSuchFile
    | some d =>
      match s.stream d.stream with
      | .file file =>
        let files := match file.entry with
          | .file number => if access.truncates then files.setContent number .empty else files
          | _ => files
        return fresh (.file { entry := file.entry, access }) { s with files }
      | .void => return fresh .void s
      | .pipe _ _ =>
        return ({ d with readable := access.readable, writable := access.writable }, s)

def read (s : System) (d : Descriptor) (limit : Option Nat) :
    Except Trouble (List UInt8 × System) :=
  if !d.readable then .error .badDescriptor
  else
    match s.stream d.stream with
    | .void => .ok ([], s)
    | .pipe bytes taken =>
      let stop := match limit with
        | none => bytes.size
        | some limit => min bytes.size (taken + limit)
      .ok ((bytes.extract taken stop).toList, s.setStream d.stream (.pipe bytes stop))
    | .file file => do
      let amount := limit.getD (← file.readable s.files).size
      let (piece, file) ← file.read s.files amount
      return (piece.toList, s.setStream d.stream (.file file))

def write (s : System) (d : Descriptor) (bytes : List UInt8) : Except Trouble System :=
  if !d.writable then .error .badDescriptor
  else
    match s.stream d.stream with
    | .void => .ok s
    | .pipe old taken =>
      -- The stream is taken out so that its bytes have one owner.
      let s := s.setStream d.stream .void
      .ok (s.setStream d.stream (.pipe (bytes.foldl ByteArray.push old) taken))
    | .file file => do
      let (file, files) ← file.write s.files ⟨bytes.toArray⟩
      return { s.setStream d.stream (.file file) with files }

def drain (s : System) (number : Nat) : List UInt8 :=
  match s.stream number with
  | .pipe bytes taken => (bytes.extract taken bytes.size).toList
  | _ => []

end System

end JourneyMachine.Host
