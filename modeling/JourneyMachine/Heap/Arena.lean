import JourneyMachine.Heap.Object

/-!
# Arena

A fixed number of slots, each with a header and, while the header says that it is in use, an object.
Allocation moves a cursor forward over slots that are in use; when the cursor has reached the end
the arena is exhausted until it is rewound. `Arena.mark` marks everything that the given handles
lead to through slots in use, and `Arena.sweep` frees every slot in use that is not marked and takes
the marks off the others.

Allocations are numbered, and a slot knows the number of its own. Nothing reads these numbers: they
are history, which tells an object that is still there from one that has taken its slot.
-/

namespace JourneyMachine

/-- The header of a slot, that of a free one by default. Only the allocator and the collector
write it. -/
structure Header where
  inUse : Bool := false
  marked : Bool := false
  genus : Genus := .ni
deriving DecidableEq, Repr

/-- A header, an object, and how many allocations came before that of the object. -/
structure Slot where
  header : Header := {}
  object : Option Object := none
  born : Nat := 0
deriving DecidableEq, Repr

/-- How many slots a sweep kept, released and found free. -/
structure SweepCounts where
  marked : Nat
  freed : Nat
  unused : Nat
deriving DecidableEq, Repr

structure Arena where
  slots : Array Slot
  cursor : Nat := 0
  live : Nat := 0
  births : Nat := 0
deriving DecidableEq, Repr

namespace Slot

def holding (object : Object) (born : Nat) : Slot :=
  { header := { inUse := true, genus := object.genus }, object := some object, born }

def children (slot : Slot) : List Handle := slot.object.elim [] Object.children

def mark (slot : Slot) : Slot := { slot with header := { slot.header with marked := true } }

def unmark (slot : Slot) : Slot := { slot with header := { slot.header with marked := false } }

/-- Replaces the object, if there is one, and leaves the header alone. -/
def edit (slot : Slot) (f : Object → Object) : Slot := { slot with object := slot.object.map f }

/-- In use and not marked. -/
def isWaiting (slot : Slot) : Bool := slot.header.inUse && !slot.header.marked

/-- In use and marked. -/
def isKept (slot : Slot) : Bool := slot.header.inUse && slot.header.marked

/-- What a slot can still add to the collector's work: itself and its children. -/
def weight (slot : Slot) : Nat := if slot.isWaiting then 1 + slot.children.length else 0

/-- What a sweep leaves in a slot. -/
def sweep (slot : Slot) : Slot :=
  if !slot.header.inUse then slot else if slot.header.marked then slot.unmark else {}

end Slot

namespace Arena

def empty (capacity : Nat) : Arena :=
  { slots := Array.replicate capacity {} }

def capacity (a : Arena) : Nat := a.slots.size

def isExhausted (a : Arena) : Bool := a.capacity ≤ a.cursor

def get? (a : Arena) (h : Handle) : Option Object :=
  a.slots[h.slot]?.bind (·.object)

/-- The header of a slot; none beyond the last slot. -/
def header? (a : Arena) (h : Handle) : Option Header :=
  a.slots[h.slot]?.map (·.header)

def modify (a : Arena) (h : Handle) (f : Object → Object) : Arena :=
  { a with slots := a.slots.modify h.slot (·.edit f) }

def nextFree? (slots : Array Slot) (i : Nat) : Option Nat :=
  if h : i < slots.size then
    if slots[i].header.inUse then nextFree? slots (i + 1) else some i
  else none
termination_by slots.size - i

/-- Places an object in the next free slot at or after the cursor, or hands it back. With up to
`2 ^ 32` slots the number of the slot fits into 32 bits. -/
def allocate (a : Arena) (object : Object) : Except Object Handle × Arena :=
  match nextFree? a.slots a.cursor with
  | some i =>
    (.ok ⟨i⟩,
      { slots := a.slots.setIfInBounds i (.holding object a.births)
        cursor := i + 1
        live := a.live + 1
        births := a.births + 1 })
  | none => (.error object, { a with cursor := a.capacity })

def rewind (a : Arena) : Arena := { a with cursor := 0 }

def totalWeight : List Slot → Nat
  | [] => 0
  | slot :: rest => slot.weight + totalWeight rest

/-- What marking can still have to do: the weights of all slots. -/
def pending (slots : Array Slot) : Nat := totalWeight slots.toList

theorem totalWeight_set (slots : List Slot) (i : Nat) (inside : i < slots.length) (slot : Slot) :
    totalWeight (slots.set i slot) + slots[i].weight = totalWeight slots + slot.weight := by
  induction slots generalizing i with
  | nil => simp at inside
  | cons first rest ih =>
    cases i with
    | zero =>
      simp only [List.set_cons_zero, totalWeight, List.getElem_cons_zero]
      omega
    | succ i =>
      have step := ih i (by simpa using inside)
      simp only [List.set_cons_succ, totalWeight, List.getElem_cons_succ]
      omega

theorem pending_mark {slots : Array Slot} {i : Nat} {slot : Slot} (found : slots[i]? = some slot)
    (waiting : slot.isWaiting = true) :
    pending (slots.setIfInBounds i slot.mark) + (1 + slot.children.length) = pending slots := by
  obtain ⟨inside, same⟩ := Array.getElem?_eq_some_iff.mp found
  have weights := totalWeight_set slots.toList i (by simpa using inside) slot.mark
  have before : slot.weight = 1 + slot.children.length := if_pos waiting
  have after : slot.mark.weight = 0 := by simp [Slot.weight, Slot.isWaiting, Slot.mark]
  simp only [Array.getElem_toList, same] at weights
  simp only [pending, Array.toList_setIfInBounds]
  omega

set_option linter.unusedVariables false in
/-- Marks every slot in use that the handles lead to. A marked slot has been dealt with before, and
handles of free or missing slots lead nowhere. -/
def markSlots (slots : Array Slot) : List Handle → Array Slot
  | [] => slots
  | h :: work =>
    match found : slots[h.slot]? with
    | some slot =>
      if waiting : slot.isWaiting = true then
        markSlots (slots.setIfInBounds h.slot slot.mark) (slot.children ++ work)
      else markSlots slots work
    | none => markSlots slots work
termination_by work => pending slots + work.length
decreasing_by
  · have := pending_mark found waiting
    simp only [List.length_append, List.length_cons]
    omega
  all_goals simp

def mark (a : Arena) (roots : List Handle) : Arena :=
  { a with slots := markSlots a.slots roots }

def sweepCounts (slots : Array Slot) : SweepCounts :=
  { marked := slots.countP Slot.isKept
    freed := slots.countP Slot.isWaiting
    unused := slots.countP (!·.header.inUse) }

/-- Releases every slot in use that is not marked and takes the mark off the others. -/
def sweep (a : Arena) : SweepCounts × Arena :=
  let counts := sweepCounts a.slots
  (counts, { a with slots := a.slots.map Slot.sweep, live := counts.marked })

def clear (a : Arena) : Arena := empty a.capacity

end Arena

end JourneyMachine
