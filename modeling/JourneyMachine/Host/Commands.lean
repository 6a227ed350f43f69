import JourneyMachine.Host.Shell.Run

namespace JourneyMachine.Host

structure Ran where
  output : List UInt8 := []
  errors : List UInt8 := []
  status : Nat := 0
  files : Files

namespace Command

def environment : List (String × String) :=
  [("HOME", "/root"), ("PATH", "/usr/local/sbin:/usr/local/bin:/usr/sbin:/usr/bin:/sbin:/bin")]

/-- The program that a name stands for. A name without a slash is looked for among the programs of
the system. -/
def program? (system : System) (name : String) : Except Trouble String := do
  if name = "" then throw .noSuchFile
  else if name.toList.contains '/' then
    let (path, slash) ← system.resolve Entry.workplace name
    match system.find? path with
    | none => throw .noSuchFile
    | some (.program file) => if slash then throw .notDirectory else return file
    | some .directory => throw .permissionDenied
    | some _ => throw (if slash then .notDirectory else .permissionDenied)
  else if 255 < name.utf8ByteSize then throw .nameTooLong
  else if name = "." ∨ name = ".." then throw .permissionDenied
  else if name ∈ Entry.programs then return name
  else throw .noSuchFile

def spawn (files : Files) (input : List UInt8) (name : String) (args : List String) :
    Except Trouble Ran := do
  let words := name :: args
  if words.any fun word => word.toList.contains '\x00' then throw .nulInArgument
  -- The output and the error stream come first, then the input.
  let streams : Array Stream := #[.pipe .empty 0, .pipe .empty 0, .pipe ⟨input.toArray⟩ 0]
  let system : System := { files, streams }
  let file ← program? system name
  if exceedsLimit words String.utf8ByteSize then throw .argumentTooLong
  let descriptors : Descriptors :=
    [(0, { stream := 2, readable := true }), (1, { stream := 0, writable := true }),
     (2, { stream := 1, writable := true })]
  let work := Shell.start file (toOctets name) (args.map toOctets)
  let (status, system) := (work.run { descriptors, environment }).run system
  return { output := system.drain 0, errors := system.drain 1, status, files := system.files }

end Command

end JourneyMachine.Host
