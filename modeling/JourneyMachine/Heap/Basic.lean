import JourneyMachine.Heap.Arena

/-!
# Heap

An arena with a collector. An allocation that finds the arena exhausted collects once, keeping what
the roots and the children of the waiting object lead to, and then tries again.
-/

namespace JourneyMachine

/-- The arena with the running totals of its collections. -/
structure Heap where
  arena : Arena
  collections : Nat := 0
  freed : Nat := 0
deriving DecidableEq, Repr

structure HeapStats where
  capacity : Nat
  live : Nat
  collections : Nat
  freed : Nat
deriving DecidableEq, Repr

namespace Heap

def empty (capacity : Nat) : Heap := { arena := .empty capacity }

def capacity (heap : Heap) : Nat := heap.arena.capacity

def collect (heap : Heap) (roots : List Handle) : SweepCounts × Heap :=
  let (counts, arena) := (heap.arena.mark roots).sweep
  (counts,
    { arena := arena.rewind
      collections := heap.collections + 1
      freed := heap.freed + counts.freed })

/-- Allocates an object, collecting once if the arena is exhausted. The object is handed back if
there is no room even then. -/
@[inline] def allocate (heap : Heap) (object : Object) (roots : List Handle) :
    Except Object Handle × Heap :=
  match heap.arena.allocate object with
  | (.ok h, arena) => (.ok h, { heap with arena })
  | (.error object, arena) =>
    let (_, heap) := { heap with arena : Heap }.collect (roots ++ object.children)
    let (result, arena) := heap.arena.allocate object
    (result, { heap with arena })

def teardown (heap : Heap) : Heap :=
  { heap with arena := heap.arena.clear }

def get? (heap : Heap) (h : Handle) : Option Object := heap.arena.get? h

def header? (heap : Heap) (h : Handle) : Option Header := heap.arena.header? h

/-- Whether the header of a slot says that it is in use. -/
def isLive (heap : Heap) (h : Handle) : Bool := (heap.header? h).any (·.inUse)

def modify (heap : Heap) (h : Handle) (f : Object → Object) : Heap :=
  { heap with arena := heap.arena.modify h f }

def stats (heap : Heap) : HeapStats :=
  { capacity := heap.capacity
    live := heap.arena.live
    collections := heap.collections
    freed := heap.freed }

/-- Reads the part of an object that the expected genus promises. A free slot and an object of
another genus are faults. -/
def read {α : Type} (heap : Heap) (expected : Genus) (part? : Object → Option α) (h : Handle) :
    Except Fault α :=
  match heap.get? h with
  | none => .error (.dangling h.slot)
  | some object =>
    match part? object with
    | some part => .ok part
    | none => .error (.wrongGenus expected object.genus)

def text (heap : Heap) (h : Handle) : Except Fault String := heap.read .text Object.text? h

def book (heap : Heap) (h : Handle) : Except Fault (Array Value) := heap.read .book Object.book? h

def codex (heap : Heap) (h : Handle) : Except Fault (List (Value × Value)) :=
  heap.read .codex Object.codex? h

def form (heap : Heap) (h : Handle) : Except Fault Form := heap.read .form Object.form? h

def imitation (heap : Heap) (h : Handle) : Except Fault Imitation :=
  heap.read .imitation Object.imitation? h

def journey (heap : Heap) (h : Handle) : Except Fault Journey :=
  heap.read .journey Object.journey? h

def other (heap : Heap) (h : Handle) : Except Fault Other := heap.read .other Object.other? h

end Heap

end JourneyMachine
