import JourneyMachine.Heap.Basic

/-! A slot has a header and an object that could disagree. After any operations of an arena they do
not (`Slot.Paired`), and then all that can be seen of a slot is whether it holds a cell, and which. -/

namespace JourneyMachine

/-- What is seen of a slot that holds an object: the object, its number, and of the header the genus
and the mark. -/
structure Cell where
  genus : Genus
  marked : Bool := false
  object : Object
  born : Nat := 0
deriving DecidableEq, Repr

def Cell.unmark (c : Cell) : Cell := { c with marked := false }

namespace Slot

def cell? (slot : Slot) : Option Cell :=
  slot.object.map fun object =>
    { genus := slot.header.genus, marked := slot.header.marked, object, born := slot.born }

/-- The header and the object agree: a slot is in use iff it holds an object, and a free one has the
header that it was made with. -/
structure Paired (slot : Slot) : Prop where
  inUse : slot.header.inUse = slot.object.isSome
  free : slot.object = none → slot.header = {}

variable {slot : Slot}

theorem paired_free (born : Nat) : Paired { born := born } := ⟨rfl, fun _ => rfl⟩

theorem paired_holding (object : Object) (born : Nat) : (holding object born).Paired :=
  ⟨rfl, fun none => by cases none⟩

theorem children_eq {c : Cell} (found : slot.cell? = some c) :
    slot.children = c.object.children := by
  obtain ⟨object, same, rfl⟩ := Option.map_eq_some_iff.mp found
  simp [children, same]

theorem mark_cell? (slot : Slot) :
    slot.mark.cell? = slot.cell?.map fun c => { c with marked := true } := by
  simp [cell?, mark, Function.comp_def]

theorem edit_cell? (slot : Slot) (f : Object → Object) :
    (slot.edit f).cell? = slot.cell?.map fun c => { c with object := f c.object } := by
  simp [cell?, edit, Function.comp_def]

namespace Paired

theorem inUse_eq (paired : slot.Paired) : slot.header.inUse = slot.cell?.isSome := by
  simp [paired.inUse, cell?]

theorem isWaiting_eq (paired : slot.Paired) : slot.isWaiting = slot.cell?.any (!·.marked) := by
  have used := paired.inUse
  cases same : slot.object <;> simp_all [isWaiting, cell?]

theorem isKept_eq (paired : slot.Paired) : slot.isKept = slot.cell?.any (·.marked) := by
  have used := paired.inUse
  cases same : slot.object <;> simp_all [isKept, cell?]

theorem sweep_cell? (paired : slot.Paired) :
    slot.sweep.cell? = slot.cell?.bind fun c => if c.marked then some c.unmark else none := by
  have used := paired.inUse
  cases same : slot.object with
  | none => simp [sweep, used, same, cell?]
  | some object =>
    cases marked : slot.header.marked <;>
      simp [sweep, used, same, marked, cell?, Slot.unmark, Cell.unmark]

theorem mark (paired : slot.Paired) (waiting : slot.isWaiting = true) : slot.mark.Paired where
  inUse := paired.inUse
  free gone := by
    have used := paired.inUse
    rw [show slot.object = none from gone] at used
    simp [isWaiting, used] at waiting

theorem sweep (paired : slot.Paired) : slot.sweep.Paired := by
  have used := paired.inUse
  unfold Slot.sweep
  split
  · exact paired
  · split
    · rename_i inUse _
      refine ⟨used, fun gone => ?_⟩
      rw [show slot.object = none from gone] at used
      simp [used] at inUse
    · exact paired_free 0

theorem edit (paired : slot.Paired) (f : Object → Object) : (slot.edit f).Paired where
  inUse := by simp [Slot.edit, paired.inUse]
  free gone := paired.free (Option.map_eq_none_iff.mp gone)

end Paired

end Slot

namespace Arena

def Paired (slots : Array Slot) : Prop := ∀ (i : Nat) (slot : Slot), slots[i]? = some slot → slot.Paired

theorem Paired.set {slots : Array Slot} (paired : Paired slots) (i : Nat) {slot : Slot}
    (new : slot.Paired) : Paired (slots.setIfInBounds i slot) := by
  intro k found look
  rw [Array.getElem?_setIfInBounds] at look
  split at look
  · split at look
    · cases look
      exact new
    · cases look
  · exact paired k found look

def cellAt (slots : Array Slot) (h : Handle) : Option Cell := slots[h.slot]?.bind Slot.cell?

def cell? (a : Arena) (h : Handle) : Option Cell := cellAt a.slots h

theorem get?_eq_map (a : Arena) (h : Handle) : a.get? h = (a.cell? h).map (·.object) := by
  simp only [get?, cell?, cellAt]
  cases a.slots[h.slot]? with
  | none => rfl
  | some slot => simp [Slot.cell?, Function.comp_def]

theorem cellAt_eq_some {slots : Array Slot} {h : Handle} {c : Cell} :
    cellAt slots h = some c ↔ ∃ slot, slots[h.slot]? = some slot ∧ slot.cell? = some c :=
  Option.bind_eq_some_iff

theorem cellAt_lt {slots : Array Slot} {h : Handle} {c : Cell}
    (found : cellAt slots h = some c) : h.slot < slots.size := by
  obtain ⟨slot, there, _⟩ := cellAt_eq_some.mp found
  exact (Array.getElem?_eq_some_iff.mp there).1

theorem cellAt_set {slots : Array Slot} {h : Handle} (inside : h.slot < slots.size)
    (new : Slot) (k : Handle) :
    cellAt (slots.setIfInBounds h.slot new) k = if k = h then new.cell? else cellAt slots k := by
  by_cases same : k = h
  · subst same
    simp [cellAt, inside]
  · have other : h.slot ≠ k.slot := fun equal => same (by cases k; cases h; simp_all)
    simp [cellAt, other, same]

end Arena

end JourneyMachine
