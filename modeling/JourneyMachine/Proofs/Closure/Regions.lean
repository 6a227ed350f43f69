import JourneyMachine.Machine.Step
import JourneyMachine.Proofs.Closure.Shapes

/-! The states a computation passes through. `Machine.Within` is what a computation keeps that gives
back the frames and pins it took, and `Machine.Active` what the code of the frame on top keeps. A
region is such a condition, with what every proof needs of it. `Machine.Precedes` relates the states
among each other. -/

namespace JourneyMachine

namespace Heap

/-- A heap after allocations and collections that started from the values. -/
structure Kept (values : List Value) (old new : Heap) : Prop where
  tidy : new.Tidy
  closed : new.Closed
  capacity : new.capacity = old.capacity
  kept : ∀ h, old.Reachable (values.filterMap Value.handle?) h → new.get? h = old.get? h

theorem Kept.refers {values : List Value} {old new : Heap} (kept : Kept values old new) {v : Value}
    (refers : old.Refers v) (member : v ∈ values) : new.Refers v :=
  refers.of_get? fun h found => kept.kept h (refers.reachable member found)

section Steps

variable {heap : Heap} {values : List Value} {object : Object}

theorem collect_keeps (tidy : heap.Tidy) (closed : heap.Closed) (roots : List Handle)
    (sub : ∀ h ∈ values.filterMap Value.handle?, h ∈ roots) :
    Kept values heap (heap.collect roots).2 where
  tidy := tidy.collect roots
  closed := closed.collect tidy
  capacity := collect_capacity heap roots
  kept _ reachable := get?_collect tidy (reachable.mono sub)

theorem filled_keeps (tidy : heap.Tidy) (closed : heap.Closed) {h : Handle}
    (first : heap.FirstFree h) (holds : ∀ v ∈ object.links, heap.Refers v) :
    Kept values heap (heap.filled h object) where
  tidy := tidy.filled first object
  closed := closed.filled first holds
  capacity := by simp [filled, capacity, Arena.capacity]
  kept k reachable := by
    obtain ⟨o, used⟩ := reachable.inUse
    exact (get?_filled_of_some first used).trans used.symm

theorem Kept.trans {old mid new : Heap} (first : Kept values old mid) (second : Kept values mid new)
    (refer : ∀ v ∈ values, old.Refers v) : Kept values old new where
  tidy := second.tidy
  closed := second.closed
  capacity := second.capacity.trans first.capacity
  kept h reachable := by
    have still : mid.Reachable (values.filterMap Value.handle?) h := by
      induction reachable with
      | root member used =>
        obtain ⟨v, there, found⟩ := List.mem_filterMap.mp member
        exact (first.refers (refer v there) there).reachable there found
      | @child p k o q parent holds member used ih =>
        have same : mid.get? p = some o := (first.kept p parent).trans holds
        refine .child ih same member (p := q) ?_
        exact (first.kept k (.child parent holds member used)).trans used
    exact (second.kept h still).trans (first.kept h reachable)

theorem allocate_capacity (tidy : heap.Tidy) (object : Object) (roots : List Handle) :
    (heap.allocate object roots).2.capacity = heap.capacity := by
  have filled : ∀ (heap : Heap) h, (heap.filled h object).capacity = heap.capacity := by
    intro heap h
    simp [Heap.filled, capacity, Arena.capacity]
  rcases allocate_inv tidy object roots with ⟨h, _, same⟩ | ⟨_, after, rfl, rest⟩
  · rw [same, filled]
  · rcases rest with ⟨h, _, same⟩ | ⟨_, same⟩
    · rw [same, filled, collect_capacity]
    · rw [same]
      exact collect_capacity ..

/-- What is in use after an allocation was before, or is the object. -/
theorem allocate_made (tidy : heap.Tidy) {roots : List Handle} {result : Except Object Handle}
    {new : Heap} (same : heap.allocate object roots = (result, new)) {k : Handle} {o : Object}
    (used : new.get? k = some o) : heap.get? k = some o ∨ (result = .ok k ∧ o = object) := by
  rcases allocate_inv tidy object roots with ⟨h, first, equal⟩ | ⟨_, after, rfl, rest⟩
  · cases same.symm.trans equal
    rw [get?_filled first] at used
    split at used
    · rename_i this
      exact .inr ⟨by rw [this], (Option.some.inj used).symm⟩
    · exact .inl used
  · rcases rest with ⟨h, first, equal⟩ | ⟨full, equal⟩
    · cases same.symm.trans equal
      rw [get?_filled first] at used
      split at used
      · rename_i this
        exact .inr ⟨by rw [this], (Option.some.inj used).symm⟩
      · exact .inl (get?_of_collect tidy used).2
    · cases same.symm.trans equal
      exact .inl (get?_of_collect tidy used).2

/-- What an allocation from the handles of the values leaves, and where it puts the object. -/
theorem allocate_keeps (tidy : heap.Tidy) (closed : heap.Closed)
    (refer : ∀ v ∈ values, heap.Refers v) (holds : ∀ v ∈ object.links, heap.Refers v)
    {result : Except Object Handle} {new : Heap}
    (same : heap.allocate object (values.filterMap Value.handle?) = (result, new)) :
    Kept values heap new ∧
    (∀ h, result = .ok h → new.get? h = some object ∧
      ∀ k, heap.Reachable (values.filterMap Value.handle?) k → k ≠ h) ∧
    ∀ k o, new.get? k = some o →
      heap.get? k = some o ∨ (result = .ok k ∧ o = object) := by
  have sub : ∀ k ∈ values.filterMap Value.handle?,
      k ∈ values.filterMap Value.handle? ++ object.children :=
    fun k member => List.mem_append_left _ member
  -- The object is a root of the collection besides the values, so it keeps what it holds.
  have contract := allocate_meets tidy object (values.filterMap Value.handle?)
  rw [same] at contract
  have fresh : ∀ h, result = .ok h → new.get? h = some object ∧
      ∀ k, heap.Reachable (values.filterMap Value.handle?) k → k ≠ h := by
    intro h placed
    obtain ⟨lost, there, _⟩ := contract.placed h placed
    refine ⟨there, fun k reachable equal => lost ?_⟩
    rw [← equal]
    exact reachable.mono sub
  refine ⟨?_, fresh, ?_⟩
  · rcases allocate_inv tidy object (values.filterMap Value.handle?) with
      ⟨h, first, equal⟩ | ⟨_, after, rfl, rest⟩
    · cases same.symm.trans equal
      exact filled_keeps tidy closed first holds
    · have swept := collect_keeps tidy closed _ sub
      have still : ∀ v ∈ object.links, (heap.collect
          (values.filterMap Value.handle? ++ object.children)).2.Refers v := fun v member =>
        (holds v member).collect tidy member fun k child =>
          List.mem_append_right _ (by rwa [object.children_eq])
      rcases rest with ⟨h, first, equal⟩ | ⟨full, equal⟩
      · cases same.symm.trans equal
        exact swept.trans (filled_keeps swept.tidy swept.closed first still) refer
      · cases same.symm.trans equal
        exact ⟨⟨swept.tidy.paired, swept.tidy.unmarked, full, swept.tidy.born⟩, swept.closed,
          swept.capacity, swept.kept⟩
  · exact fun k o used => allocate_made tidy same used

end Steps

end Heap

theorem oldest_append {α : Type} (newer older : List α) :
    oldest older.length (newer ++ older) = older := by
  simp [oldest]

namespace Machine

def withBudget (m : Machine) (budget : Nat) : Machine := { m with budget }

@[simp] theorem withBudget_budget (m : Machine) (n : Nat) : (m.withBudget n).budget = n := rfl

@[simp] theorem withBudget_withBudget (m : Machine) (n k : Nat) :
    (m.withBudget n).withBudget k = m.withBudget k := rfl

@[simp] theorem withBudget_self (m : Machine) : m.withBudget m.budget = m := rfl

def pin (m : Machine) (values : List Value) : Machine := { m with pinned := values ++ m.pinned }

/-- The machine with the newest pins released, so that only so many are left. -/
def unpin (m : Machine) (count : Nat) : Machine := { m with pinned := oldest count m.pinned }

theorem unpin_pin (m : Machine) (values : List Value) :
    (m.pin values).unpin m.pinned.length = m := by
  simp only [unpin, pin, oldest_append]

theorem held_pin {m : Machine} {values : List Value} {v : Value} (member : v ∈ m.held) :
    v ∈ (m.pin values).held := by
  simp only [held, pin, List.mem_append] at member ⊢
  tauto

theorem held_pinned {m : Machine} {values : List Value} {v : Value} (member : v ∈ values) :
    v ∈ (m.pin values).held := by
  simp only [held, pin, List.mem_append]
  tauto

/-- If the first machine is shaped, so is the second one, and its heap is what became of the
first's. -/
def Precedes (m m' : Machine) : Prop :=
  m.heap.Shaped m.builtins → m'.heap.Shaped m'.builtins ∧ m.heap.Ages m'.heap

namespace Precedes

variable {m m₁ m₂ : Machine}

theorem same (heap : m₁.heap = m.heap) (builtins : m₁.builtins = m.builtins) : m.Precedes m₁ := by
  intro shaped
  rw [heap, builtins]
  exact ⟨shaped, .refl m.heap⟩

theorem refl : m.Precedes m := .same rfl rfl

theorem trans (first : m.Precedes m₁) (second : m₁.Precedes m₂) : m.Precedes m₂ := by
  intro shaped
  obtain ⟨still, aged⟩ := first shaped
  obtain ⟨again, older⟩ := second still
  exact ⟨again, aged.trans older⟩

theorem modify {h : Handle} {f : Object → Object}
    (alike : ∀ o, m.heap.get? h = some o → o.Alike (f o))
    (suits : m.heap.Shaped m.builtins → ∀ o, m.heap.get? h = some o → m.heap.Suits (f o)) :
    m.Precedes { m with heap := m.heap.modify h f } :=
  fun shaped => ⟨shaped.modify alike (suits shaped), Heap.ages_modify alike⟩

end Precedes

/-- No entry before a position was removed from a codex. -/
def SparesFirst (newer : List (Handle × Nat)) (h : Handle) (count : Nat) : Prop :=
  ∀ position, (h, position) ∈ newer → count ≤ position

/-- Every codex that is held keeps its first keys in their places, as far as no entry before was
removed from it. New keys come after those that are there. -/
def Appends (m₀ m : Machine) : Prop :=
  ∃ newer, m.removals = newer ++ m₀.removals ∧ ∀ h entries count, .codex h ∈ m₀.held →
    SparesFirst newer h count → m₀.heap.get? h = some (.codex entries) →
    ∃ after, m.heap.get? h = some (.codex after) ∧
      (entries.map (·.1)).take count <+: after.map (·.1)

namespace Appends

variable {m₀ m₁ m₂ : Machine}

theorem same (heap : m₁.heap = m₀.heap) (removals : m₁.removals = m₀.removals) : Appends m₀ m₁ := by
  apply Exists.intro []
  constructor
  · exact removals
  · intro h entries count _ _ used
    rw [heap]
    exact ⟨entries, used, List.take_prefix ..⟩

theorem mono {m : Machine} (appends : Appends m₀ m₁) (heap : m₀.heap = m.heap)
    (removals : m₀.removals = m.removals) (sub : ∀ v ∈ m.held, v ∈ m₀.held) : Appends m m₁ := by
  obtain ⟨newer, same, kept⟩ := appends
  apply Exists.intro newer
  constructor
  · rw [same, removals]
  · intro h entries count member spared used
    exact kept h entries count (sub _ member) spared (heap ▸ used)

theorem trans (first : Appends m₀ m₁) (second : Appends m₁ m₂)
    (sub : ∀ v ∈ m₀.held, v ∈ m₁.held) : Appends m₀ m₂ := by
  obtain ⟨newer, same, kept⟩ := first
  obtain ⟨newest, equal, still⟩ := second
  apply Exists.intro (newest ++ newer)
  constructor
  · rw [equal, same, List.append_assoc]
  · intro h entries count member spared used
    obtain ⟨between, there, longer⟩ := kept h entries count member
      (fun position removed => spared position (List.mem_append_right _ removed)) used
    obtain ⟨after, final, last⟩ := still h between count (sub _ member)
      (fun position removed => spared position (List.mem_append_left _ removed)) there
    have taken := longer.take count
    rw [List.take_take, Nat.min_self] at taken
    exact ⟨after, final, taken.trans last⟩

end Appends

/-- A computation that took `m₀` to `m` and holds nothing any more, or is about to return. -/
structure Within (strict : Prop) (m₀ m : Machine) : Prop where
  closed : m.Closed
  fixed : m.fixed = m₀.fixed
  frames : m.frames = m₀.frames
  pinned : m.pinned = m₀.pinned
  evolves : Heap.Evolves strict m₀.held m₀.heap m.heap
  appends : Appends m₀ m

namespace Within

variable {strict : Prop} {m₀ m₁ m₂ m : Machine}

theorem refl (closed : m.Closed) : Within strict m m :=
  ⟨closed, rfl, rfl, rfl, .refl, .same rfl rfl⟩

theorem held (within : Within strict m₀ m) : m.held = m₀.held := by
  simp only [Machine.held, within.frames, within.pinned]

theorem refers (within : Within strict m₀ m) {v : Value} (member : v ∈ m₀.held) :
    m.heap.Refers v :=
  within.closed.held (by rwa [within.held])

theorem trans (first : Within strict m₀ m₁) (second : Within strict m₁ m₂) :
    Within strict m₀ m₂ where
  closed := second.closed
  fixed := second.fixed.trans first.fixed
  frames := second.frames.trans first.frames
  pinned := second.pinned.trans first.pinned
  evolves := first.evolves.trans (first.held ▸ second.evolves)
  appends := first.appends.trans second.appends fun _ member => first.held ▸ member

theorem firm (within : Within strict m₀ m) (assumed : strict) {v : Value}
    (firm : Heap.Firm m₀.held m₀.heap v) : Heap.Firm m₀.held m.heap v :=
  within.evolves.firm assumed firm

end Within

/-- Values are pinned for a computation and released after it. -/
theorem Closed.pin {m : Machine} (closed : m.Closed) {values : List Value}
    (refer : ∀ v ∈ values, m.heap.Refers v) : (m.pin values).Closed := by
  refine closed.of_links rfl (fun v member => ?_) fun _ => .inl
  have new := refer v
  simp only [Machine.links, Machine.pin, List.mem_append] at member ⊢
  tauto

theorem Within.unpin {strict : Prop} {m m' : Machine} {values : List Value}
    (within : Within strict (m.pin values) m') : Within strict m (m'.unpin m.pinned.length) where
  closed := by
    refine within.closed.of_links rfl (fun v member => .inl ?_) fun _ => .inl
    have pinned : m'.pinned = values ++ m.pinned := within.pinned
    simp only [Machine.links, Machine.unpin, List.mem_append, pinned, oldest_append] at member ⊢
    tauto
  fixed := within.fixed
  frames := within.frames
  pinned := (congrArg (oldest m.pinned.length) within.pinned).trans (oldest_append ..)
  evolves := within.evolves.mono fun _ member => held_pin member
  appends := within.appends.mono rfl rfl fun _ member => held_pin member

/-- What the frames below the one on top and the pins hold. -/
def suspended (m : Machine) : List Value := m.pinned ++ m.frames.tail.flatMap Frame.links

def word? (m : Machine) (ahead : Nat) : Option Word := do
  let f ← m.frames.head?
  f.pattern.block.code[f.ip + ahead]?

def operand? (m : Machine) (ahead : Nat) : Option Value := do
  let f ← m.frames.head?
  let w ← m.word? ahead
  f.registers[w.toNat]?

def storedGuard? (opcode : Opcode) (f : Form) (index : Nat) (guard : Value) : Option Form :=
  match opcode with
  | .feGenusStore => some (f.setEssenceGuard index guard)
  | .fmGenusStore => some (f.setMatterGuard index guard)
  | _ => none

/-- The next instruction takes a guard that lives in the heap from a form that a suspended frame or
a pin refers to, itself or by an imitation of it. -/
def DropsGuard (m : Machine) : Prop :=
  ∃ opcode h f guard index after old, (m.word? 0).bind Opcode.ofWord? = some opcode ∧
    m.operand? 1 = some (.form h) ∧ m.operand? 2 = some guard ∧ m.word? 3 = some index ∧
    Heap.HeldForm m.suspended m.heap h ∧ m.heap.get? h = some (.form f) ∧
    storedGuard? opcode f index.toNat guard = some after ∧
    old ∈ f.guards ∧ old.handle? ≠ none ∧ old ∉ after.guards

/-- The frame on top runs a pattern of a journey, above what `m₀` holds. -/
structure Active (strict : Prop) (m₀ : Machine) (h : Handle) (p : Pattern) (m : Machine) :
    Prop where
  closed : m.Closed
  fixed : m.fixed = m₀.fixed
  frame : ∃ f, m.frames = f :: m₀.frames ∧ f.journey = h ∧ f.pattern = p
  pinned : m.pinned = m₀.pinned
  evolves : Heap.Evolves strict m₀.held m₀.heap m.heap
  appends : Appends m₀ m

namespace Active

variable {strict : Prop} {m₀ m m' : Machine} {h : Handle} {p : Pattern}

theorem suspended (active : Active strict m₀ h p m) : m.suspended = m₀.held := by
  obtain ⟨f, frames, _⟩ := active.frame
  simp only [Machine.suspended, Machine.held, frames, active.pinned, List.tail_cons]

theorem held_sub (active : Active strict m₀ h p m) {v : Value} (member : v ∈ m₀.held) :
    v ∈ m.held := by
  obtain ⟨f, frames, _⟩ := active.frame
  simp only [Machine.held, frames, active.pinned, List.flatMap_cons, List.mem_append] at member ⊢
  tauto

theorem within (active : Active strict m₀ h p m) (within : Within strict m m') :
    Active strict m₀ h p m' where
  closed := within.closed
  fixed := within.fixed.trans active.fixed
  frame := by
    obtain ⟨f, frames, same⟩ := active.frame
    exact ⟨f, within.frames.trans frames, same⟩
  pinned := within.pinned.trans active.pinned
  evolves := active.evolves.trans (within.evolves.mono fun _ => active.held_sub)
  appends := active.appends.trans within.appends fun _ => active.held_sub

theorem relaxed (active : Active strict m₀ h p m) : Active False m₀ h p m :=
  ⟨active.closed, active.fixed, active.frame, active.pinned, active.evolves.relaxed,
    active.appends⟩

end Active

end Machine

/-- A condition on machines that computations keep which hold nothing when they end, and whether
those that stay there keep the shapes of objects. -/
structure Region (strict : Prop) where
  holds : Machine → Prop
  shapes : Prop := True
  closed : ∀ {m}, holds m → m.Closed
  stable : ∀ {m m'}, holds m → Machine.Within strict m m' → holds m'

namespace Region

variable (strict : Prop)

def within (m₀ : Machine) : Region strict where
  holds := Machine.Within strict m₀
  closed := fun within => within.closed
  stable := Machine.Within.trans

def active (m₀ : Machine) (h : Handle) (p : Pattern) : Region strict where
  holds := Machine.Active strict m₀ h p
  closed := fun active => active.closed
  stable := Machine.Active.within

end Region

end JourneyMachine
