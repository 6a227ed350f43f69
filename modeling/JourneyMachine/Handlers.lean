import JourneyMachine.Value

/-!
# Exception handlers

A bounded stack of records that say where to resume, and the slot of the current exception. The
newest record comes first; only the frame that installed it may catch with it. The value that was
thrown last and the numeral of an exit, which no handler catches, are kept as history: nothing reads
them, so that it can be said which throw an exception or which exit an end comes from.
-/

namespace JourneyMachine

/-- Where a frame resumes after a throw: the depth of the frame, the position, and the register
that receives the exception. -/
structure Handler where
  frame : Nat
  resume : Nat
  register : Nat
deriving DecidableEq, Repr

/-- The installed handlers, newest first, and the exception in flight (ni for none). -/
structure HandlerStack where
  records : List Handler := []
  limit : Nat
  exception : Value := .ni
  /-- The value thrown last, whether it was caught since or not. -/
  lastThrown : Value := .ni
  /-- The numeral an exit was asked for with. -/
  exitRequest : Option Int64 := none
deriving DecidableEq, Repr

namespace HandlerStack

def depth (s : HandlerStack) : Nat := s.records.length

def push? (s : HandlerStack) (h : Handler) : Option HandlerStack :=
  if s.limit ≤ s.depth then none else some { s with records := h :: s.records }

def pop? (s : HandlerStack) : Option (Handler × HandlerStack) :=
  match s.records with
  | [] => none
  | h :: rest => some (h, { s with records := rest })

def throw (s : HandlerStack) (exception : Value) : HandlerStack :=
  { s with exception, lastThrown := exception }

def exit (s : HandlerStack) (code : Int64) : HandlerStack := { s with exitRequest := some code }

def takeException (s : HandlerStack) : Value × HandlerStack :=
  (s.exception, { s with exception := .ni })

/-- Removes the newest handler if the frame at that depth installed it. -/
def catchIn? (s : HandlerStack) (frame : Nat) : Option (Handler × HandlerStack) :=
  match s.records with
  | [] => none
  | h :: rest => if h.frame = frame then some (h, { s with records := rest }) else none

/-- Drops the newest handlers as long as a frame at that depth or deeper installed them. -/
def discard (s : HandlerStack) (frame : Nat) : HandlerStack :=
  { s with records := s.records.dropWhile fun h => frame ≤ h.frame }

end HandlerStack

end JourneyMachine
