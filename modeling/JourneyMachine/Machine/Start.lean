import JourneyMachine.Machine.Step

namespace JourneyMachine

open Host (World)

namespace Machine

/-- The fewest slots that hold the objects every machine needs. -/
def minHeapSlots : Nat := 4

/-- The message of the exception that is set aside for a full heap. -/
def heapExhaustedMessage : String := "heap exhausted"

/-- Allocates an object of a machine under construction; `rooted` are those it has already. -/
def place (heap : Heap) (rooted : List Handle) (object : Object) : Except Fault (Handle × Heap) :=
  match heap.allocate object rooted with
  | (.ok h, heap) => .ok (h, heap)
  | (.error _, heap) => .error (.heapTooSmall heap.capacity)

def start (settings : Settings) (world : World) : Except Fault Machine :=
  if settings.heapSlots < minHeapSlots then .error (.heapTooSmall settings.heapSlots)
  else do
    let message : Matter := { name := "msg" }
    let heap := Heap.empty settings.heapSlots
    let (exception, heap) ← place heap [] (.form { name := "Exception", matter := [message] })
    let (ioError, heap) ← place heap [exception]
      (.form { name := "IoError", matter := [message], parents := [exception] })
    let (text, heap) ← place heap [exception, ioError] (.text heapExhaustedMessage)
    let (heapExhausted, heap) ← place heap [exception, ioError, text]
      (.imitation { form := exception, matter := #[.text text] })
    return {
      heap
      handlers := { limit := settings.maxHandlers }
      builtins := { exception, ioError, heapExhausted }
      settings
      random := .seeded settings.seed
      world }

def setMain (m : Machine) (v : Value) : Except Fault Machine := do
  let h ← v.expectHandle .journey
  return { m with program := { m.program with main := some h } }

def setArgvGlobal (m : Machine) (i : Nat) : Except Fault Machine :=
  if i < m.program.globals.size then
    .ok { m with program := { m.program with argvGlobal := some i } }
  else .error (.malformed (.globalRange i))

def setGlobal (m : Machine) (i : Nat) (v : Value) : Except Fault Machine :=
  if i < m.program.globals.size then .ok { m with program := m.program.setGlobal i v }
  else .error (.malformed (.globalRange i))

def defineGlobal (m : Machine) (name : String) (v : Value) : Machine :=
  { m with program := m.program.define name v }

def teardown (m : Machine) : Machine :=
  { m with frames := [], pinned := [], heap := m.heap.teardown }

/-- The message of an imitation of the built-in `Exception` form or a descendant. -/
def exceptionMessage? (m : Machine) (v : Value) : Option String :=
  m.heap.exceptionMessage? m.builtins.exception v

/-- How many calls may be inside each other; the limit on frames is reached long before. -/
def nestingLimit : Nat := 1000000000000

def run {α : Type} (m : Machine) (body : Run α) : EStateM.Result Unwind Machine α :=
  body { call := callAt nestingLimit, depth := nestingLimit } m

end Machine

namespace Run

/-- Turns a throw into a fault that shows the thrown value, which leaves the exception slot. -/
def settle {α : Type} (body : Run α) : Run α := fun env m =>
  match body env m with
  | .error .thrown m =>
    let (exception, handlers) := m.handlers.takeException
    .error (.fatal (.uncaught (m.heap.display exception))) { m with handlers }
  | result => result

def invoke (callee : Value) (args : Arguments) : Run Value :=
  settle (callValue evaluate callee args)

def textBook (texts : List String) : Run Value := do
  let target ← allocate (.book #[])
  withPinned [.book target] do
    pushTexts target texts
    return .book target

/-- Runs the entry journey. The arguments go as a book of texts into the global that receives
them, if there is one. -/
def runMain (argv : List String) : Run Value := do
  let program := (← get).program
  match program.main with
  | none => fail .missingEntry
  | some main =>
    match program.argvGlobal with
    | none => pure ()
    | some i =>
      let v ← settle (textBook argv)
      set (← ofExcept ((← get).setGlobal i v))
    settle (callValue evaluate (.journey main) {})

end Run

end JourneyMachine
