import JourneyMachine.Journey

namespace JourneyMachine

/-- The activation of a pattern of a journey. -/
structure Frame where
  journey : Handle
  pattern : Pattern
  ip : Nat := 0
  registers : Array Value
deriving DecidableEq, Repr

namespace Frame

/-- A frame whose registers are all ni. -/
def start (journey : Handle) (pattern : Pattern) : Frame :=
  { journey, pattern, registers := Array.replicate pattern.frameSize .ni }

def codeSize (f : Frame) : Nat := f.pattern.block.code.size

def atEnd (f : Frame) : Bool := f.codeSize ≤ f.ip

def register (f : Frame) (index : Nat) : Except Fault Value :=
  match f.registers[index]? with
  | some v => .ok v
  | none => .error (.malformed (.registerRange index))

def setRegister (f : Frame) (index : Nat) (value : Value) : Except Fault Frame :=
  if index < f.registers.size then
    .ok { f with registers := f.registers.setIfInBounds index value }
  else .error (.malformed (.registerRange index))

/-- Moves to a position, which may be the end of the code. -/
def jump (f : Frame) (target : Nat) : Except Fault Frame :=
  if f.codeSize < target then .error (.malformed (.jumpPastEnd target))
  else .ok { f with ip := target }

end Frame

end JourneyMachine
