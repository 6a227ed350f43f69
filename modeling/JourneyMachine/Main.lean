import JourneyMachine.CommandLine

namespace JourneyMachine

open Host (Files World)

def troubleOf : IO.Error → Trouble
  | .permissionDenied .. => .permissionDenied
  | .inappropriateType .. => .isDirectory
  | _ => .noSuchFile

def readFiles : IO Files := do
  let mut files : Files := {}
  for entry in ← (← IO.currentDir).readDir do
    if ← entry.path.isDir then files := files.putDirectory [entry.fileName]
    else
      try files := files.put [entry.fileName] (← IO.FS.readBinFile entry.path)
      catch _ => pure ()
  return files

def writeFiles (before after : Files) : IO Unit := do
  let old := before.topLevel
  for (name, bytes) in after.topLevel do
    if (old.lookup name).map (·.data) ≠ some bytes.data then IO.FS.writeBinFile name bytes

partial def readInput (stream : IO.FS.Stream) (bytes : ByteArray) : IO ByteArray := do
  let piece ← stream.read 65536
  if piece.isEmpty then return bytes else readInput stream (bytes ++ piece)

def runCommandLine (args : List String) : IO UInt32 := do
  let env ← ["SQUIRE_HEAP_SLOTS", "SQUIRE_MAX_FRAMES"].filterMapM fun name => do
    return (← IO.getEnv name).map (name, ·)
  let command := Command.parse env args
  let bytes ← match command.image? with
    | none => pure (.ok .empty)
    | some path =>
      try pure (.ok (← IO.FS.readBinFile path)) catch e => pure (.error (troubleOf e))
  let files ← readFiles
  let input ← match command with
    | .run .. => readInput (← IO.getStdin) .empty
    | _ => pure .empty
  let command ← match command with
    | .run image args settings =>
      pure (Command.run image args { settings with seed := UInt64.ofNat (← IO.monoNanosNow) })
    | other => pure other
  let report := command.execute bytes { input := input.toList, files }
  IO.print report.output
  IO.eprint report.errors
  writeFiles files report.world.files
  return report.status.toUInt32

end JourneyMachine

def main (args : List String) : IO UInt32 := JourneyMachine.runCommandLine args
