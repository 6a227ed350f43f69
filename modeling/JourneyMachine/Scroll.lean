import JourneyMachine.Host.World

namespace JourneyMachine

open Host (Access Exchange OpenFile Platform)

structure Scroll where
  filename : String
  mode : String
  /-- The open file; none once the scroll was closed. -/
  file : Option OpenFile
deriving DecidableEq, Repr

namespace Scroll

def ofFile (filename mode : String) (p : Platform) : Exchange Scroll :=
  match Access.ofMode? mode with
  | none => throw (.unknownMode mode)
  | some access => return { filename, mode, file := some (← p.openFile filename access) }

/-- The file of a scroll that is still open. -/
def opened (s : Scroll) : Exchange OpenFile :=
  match s.file with
  | some file => return file
  | none => throw (.closed s.filename)

def read (amount : Nat) (s : Scroll) (p : Platform) : Exchange (String × Scroll) := do
  let (bytes, file) ← p.readFile (← s.opened) amount
  return (Text.decodeLossy bytes.toList, { s with file := some file })

def readLine (s : Scroll) (p : Platform) : Exchange (String × Scroll) := do
  let (bytes, file) ← p.readFileLine (← s.opened)
  return (Text.decodeLossy bytes.toList, { s with file := some file })

def readAll (s : Scroll) (p : Platform) : Exchange (String × Scroll) := do
  let (bytes, file) ← p.readFileRest (← s.opened)
  return (Text.decodeLossy bytes.toList, { s with file := some file })

def write (text : String) (s : Scroll) (p : Platform) : Exchange (Unit × Scroll) := do
  let file ← p.writeFile (← s.opened) text.toUTF8
  return ((), { s with file := some file })

/-- Moves the position; the origin is 0 for the start, 1 for the position and 2 for the end. A bad
target or origin is reported before a closed scroll is. -/
def seek (offset whence : Int64) (s : Scroll) (p : Platform) : Exchange (Nat × Scroll) := do
  let origin ←
    if whence = 0 then
      if offset.toInt < 0 then throw .seekBeforeStart else pure OpenFile.Origin.start
    else if whence = 1 then pure .current
    else if whence = 2 then pure .finish
    else throw (.unknownOrigin whence)
  let (position, file) ← p.seekFile (← s.opened) offset.toInt origin
  return (position, { s with file := some file })

def tell (s : Scroll) (p : Platform) : Exchange (Nat × Scroll) := do
  return (← p.tellFile (← s.opened), s)

def close (s : Scroll) (_ : Platform) : Exchange (Unit × Scroll) :=
  match s.file with
  | some _ => return ((), { s with file := none })
  | none => throw (.alreadyClosed s.filename)

end Scroll

end JourneyMachine
