import JourneyMachine.Complaint
import JourneyMachine.Frame
import JourneyMachine.Handlers
import JourneyMachine.Heap.Basic
import JourneyMachine.Host.World
import JourneyMachine.Program
import JourneyMachine.Random

/-!
# Machine

The state of a machine and the computations that run on it. A computation may end in a value, in a
throw (the thrown value is then in the exception slot), in a fault, or by being halted because the
machine may fetch no further instruction. A halted machine is left as it stands; every other end of
a region gives back the frames and pins the region took.

Calls back into a program go through `Env.call`, so that everything below the call is written
without recursion. Collections can happen inside any allocation: what the program, the live frames,
the exception slot, the pins and the built-ins lead to survives.
-/

namespace JourneyMachine

open Host (Exchange Platform World)

structure Settings where
  heapSlots : Nat := 65536
  maxFrames : Nat := 1000
  maxHandlers : Nat := 2048
  seed : UInt64 := 0
deriving DecidableEq, Repr

/-- The objects a machine needs before any program runs. -/
structure Builtins where
  exception : Handle
  ioError : Handle
  heapExhausted : Handle
deriving DecidableEq, Repr

/-- The state of a machine. The frame on top comes first, and so does the newest pin. -/
structure Machine where
  heap : Heap
  program : Program := {}
  frames : List Frame := []
  handlers : HandlerStack
  pinned : List Value := []
  builtins : Builtins
  settings : Settings := {}
  random : Random
  world : World := {}
  /-- How many instructions may still be fetched. -/
  budget : Nat := 1000000000000000000
  /-- The codices that entries were removed from, and at which positions, the last one first. Nothing
  reads it: it is history. -/
  removals : List (Handle × Nat) := []

/-- Why a computation has no value. -/
inductive Unwind where
  /-- A value was thrown; it is in the exception slot. -/
  | thrown
  /-- Something no handler may intercept. -/
  | fatal (fault : Fault)
  /-- The budget of instructions is used up. -/
  | halted
deriving DecidableEq, Repr

/-- What a computation relies on: how to call a value, and how deeply it may nest. -/
structure Env where
  call : Value → Arguments → EStateM Unwind Machine Value
  depth : Nat

abbrev Run := ReaderT Env (EStateM Unwind Machine)

def oldest {α : Type} (count : Nat) (stack : List α) : List α := stack.drop (stack.length - count)

namespace Machine

def roots (m : Machine) : List Handle :=
  m.program.handles ++
    m.frames.flatMap (fun f => f.journey :: f.registers.toList.filterMap Value.handle?) ++
    m.handlers.exception.handle?.toList ++
    m.pinned.filterMap Value.handle? ++
    [m.builtins.exception, m.builtins.ioError, m.builtins.heapExhausted]

def collect (m : Machine) : SweepCounts × Machine :=
  let roots := m.roots
  let (counts, heap) := m.heap.collect roots
  (counts, { m with heap })

def isLive (m : Machine) (v : Value) : Bool :=
  v.handle?.all m.heap.isLive

def frameDepth (m : Machine) : Nat := m.frames.length

/-- The machine without the frames at that depth or deeper and the handlers they installed. -/
def unwindTo (m : Machine) (depth : Nat) : Machine :=
  { m with frames := oldest depth m.frames, handlers := m.handlers.discard depth }

end Machine

namespace Run

def fail {α : Type} (fault : Fault) : Run α := throw (.fatal fault)

/-- The value of a computation that can only fail for good. -/
def ofExcept {α : Type} : Except Fault α → Run α
  | .ok a => pure a
  | .error fault => fail fault

def onHeap {α : Type} (f : Heap → Except Fault α) : Run α := fun _ m =>
  match f m.heap with
  | .ok a => .ok a m
  | .error fault => .error (.fatal fault) m

/-- Asks the platform. Whatever it answers, only the world changes. -/
def exchange {α : Type} (request : Platform → Exchange α) : Run (Except Trouble α) :=
  modifyGet fun m =>
    let (answer, world) := m.world.ask request
    (answer, { m with world })

def text (h : Handle) : Run String := onHeap (·.text h)

def book (h : Handle) : Run (Array Value) := onHeap (·.book h)

def codex (h : Handle) : Run (List (Value × Value)) := onHeap (·.codex h)

def form (h : Handle) : Run Form := onHeap (·.form h)

def imitation (h : Handle) : Run Imitation := onHeap (·.imitation h)

def journey (h : Handle) : Run Journey := onHeap (·.journey h)

def other (h : Handle) : Run Other := onHeap (·.other h)

def update (h : Handle) (f : Object → Object) : Run Unit :=
  modify fun m => { m with heap := m.heap.modify h f }

def editBook (h : Handle) (f : Array Value → Array Value) : Run Unit := do
  discard (book h)
  update h fun
    | .book pages => .book (f pages)
    | object => object

def editCodex (h : Handle) (f : List (Value × Value) → List (Value × Value)) : Run Unit := do
  discard (codex h)
  update h fun
    | .codex entries => .codex (f entries)
    | object => object

def editForm (h : Handle) (f : Form → Form) : Run Unit := do
  discard (form h)
  update h fun
    | .form form => .form (f form)
    | object => object

def editImitation (h : Handle) (f : Imitation → Imitation) : Run Unit := do
  discard (imitation h)
  update h fun
    | .imitation i => .imitation (f i)
    | object => object

/-- Stores a value in the exception slot and throws it. -/
def raise {α : Type} (v : Value) : Run α := fun _ m =>
  .error .thrown { m with handlers := m.handlers.throw v }

/-- Allocates an object. A heap that is full even after a collection throws the exception that was
set aside for it. -/
def allocate (object : Object) : Run Handle := fun env m =>
  -- The roots need no heap. It is taken out so that the array of slots has one owner.
  let heap := m.heap
  let m := { m with heap := .empty 0 }
  match heap.allocate object m.roots with
  | (.ok h, heap) => .ok h { m with heap }
  | (.error _, heap) => raise (.imitation m.builtins.heapExhausted) env { m with heap }

def newText (content : String) : Run Value := return .text (← allocate (.text content))

def newBook (pages : Array Value) : Run Value := return .book (← allocate (.book pages))

def throwMessage {α : Type} (form : Handle) (message : String) : Run α := do
  let text ← allocate (.text message)
  let thrown ← allocate (.imitation { form, matter := #[.text text] })
  raise (.imitation thrown)

def complain {α : Type} (complaint : Complaint) : Run α := do
  throwMessage (← get).builtins.exception complaint.message

/-- Throws a trouble with the outside; `context` says what was attempted. -/
def report {α : Type} (context : String) (trouble : Trouble) : Run α := do
  throwMessage (← get).builtins.ioError s!"io error: {context}: {trouble.message}"

/-- Runs a computation while the values are kept alive. Afterwards only as many pins are left as
there were before. -/
def withPinned {α : Type} (values : List Value) (body : Run α) : Run α := fun env m =>
  let before := m.pinned
  -- The pins are counted only once the body has ended.
  match body env { m with pinned := values ++ before } with
  | .ok a m => .ok a { m with pinned := oldest before.length m.pinned }
  | .error .halted m => .error .halted m
  | .error unwind m => .error unwind { m with pinned := oldest before.length m.pinned }

def call (callee : Value) (args : List Value) : Run Value := fun env m =>
  env.call callee (.ofList args) m

def depth : Run Nat := return (← read).depth

def tooDeep {α : Type} : Run α := fail .tooDeep

end Run

end JourneyMachine
