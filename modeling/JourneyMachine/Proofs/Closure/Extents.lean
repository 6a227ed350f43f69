import JourneyMachine.Proofs.Closure.Lookups
import Mathlib.Data.Finset.Card
import Mathlib.Logic.Relation

namespace JourneyMachine

namespace Heap

variable {heap : Heap} {r : Value → Value → Prop} {u v w : Value} {h k : Handle}

/-- A relation that leads from values in the heap to values that refer. -/
structure Leads (heap : Heap) (r : Value → Value → Prop) : Prop where
  inHeap : ∀ v w, r v w → v.handle?.isSome
  refers : ∀ v w, r v w → heap.Refers w

/-- A relation does not lead round in circles from a value. -/
def Acyclic (r : Value → Value → Prop) (v : Value) : Prop :=
  ∀ w, Relation.ReflTransGen r v w → ¬ Relation.TransGen r w w

open Classical in
/-- The slots that a relation leads to from a value. -/
noncomputable def extent (heap : Heap) (r : Value → Value → Prop) (v : Value) : Finset Nat :=
  (Finset.range heap.capacity).filter fun slot =>
    ∃ w, w.handle? = some ⟨slot⟩ ∧ Relation.ReflTransGen r v w

theorem Acyclic.below (acyclic : Acyclic r v) (inside : Relation.ReflTransGen r v w) :
    Acyclic r w := fun u deeper => acyclic u (inside.trans deeper)

/-- Two steps away from a value there is nothing. -/
theorem Acyclic.shallow (short : ∀ u w, r v u → ¬ r u w) : Acyclic r v := by
  intro w inside circle
  obtain ⟨x, first, rest⟩ := Relation.TransGen.head'_iff.mp circle
  rcases inside.cases_head with rfl | ⟨u, step, below⟩
  · rcases rest.cases_head with rfl | ⟨y, second, _⟩
    · exact short x x first first
    · exact short x y first second
  · rcases below.cases_head with rfl | ⟨y, second, _⟩
    · exact short u x step first
    · exact short u y step second

theorem mem_extent {slot : Nat} : slot ∈ heap.extent r v ↔ slot < heap.capacity ∧
    ∃ w, w.handle? = some ⟨slot⟩ ∧ Relation.ReflTransGen r v w := by
  simp [extent]

theorem extent_le_capacity (heap : Heap) (r : Value → Value → Prop) (v : Value) :
    (heap.extent r v).card ≤ heap.capacity := by
  have sub : heap.extent r v ⊆ Finset.range heap.capacity := fun slot member =>
    Finset.mem_range.mpr (mem_extent.mp member).1
  simpa using Finset.card_le_card sub

theorem extent_step (step : r v w) : heap.extent r w ⊆ heap.extent r v := by
  intro slot member
  rw [mem_extent] at member ⊢
  obtain ⟨below, u, found, inside⟩ := member
  exact ⟨below, u, found, .head step inside⟩

theorem mem_extent_self (refers : heap.Refers v) (found : v.handle? = some h) :
    h.slot ∈ heap.extent r v := by
  obtain ⟨o, used, _⟩ := refers h found
  exact mem_extent.mpr ⟨lt_capacity used, v, found, .refl⟩

/-- A step that does not lead back leaves a slot behind. -/
theorem Leads.extent_lt (leads : heap.Leads r) (refers : heap.Refers v) (acyclic : Acyclic r v)
    (step : r v w) : (heap.extent r w).card < (heap.extent r v).card := by
  obtain ⟨h, found⟩ := Option.isSome_iff_exists.mp (leads.inHeap v w step)
  obtain ⟨o, used, _⟩ := refers h found
  apply Finset.card_lt_card
  rw [Finset.ssubset_iff_of_subset (extent_step step)]
  apply Exists.intro h.slot
  constructor
  · exact mem_extent_self refers found
  · intro again
    obtain ⟨_, u, same, inside⟩ := mem_extent.mp again
    have there : heap.Refers u := by
      rcases inside.cases_tail with rfl | ⟨x, _, last⟩
      · exact leads.refers v u step
      · exact leads.refers x u last
    cases there.unique refers same found used
    exact acyclic v .refl (.head' step inside)

section Ancestry

inductive Parent (heap : Heap) : Value → Value → Prop
  | parent {h p : Handle} {f : Form} :
      heap.get? h = some (.form f) → p ∈ f.parents → Parent heap (.form h) (.form p)

def Descends (heap : Heap) (h ancestor : Handle) : Prop :=
  Relation.ReflTransGen heap.Parent (.form h) (.form ancestor)

theorem Closed.leads_parent (closed : heap.Closed) : heap.Leads heap.Parent where
  inHeap := by
    rintro _ _ ⟨used, member⟩
    rfl
  refers := by
    rintro _ _ ⟨used, member⟩
    exact (refers_form).mpr (closed.parent used member)

theorem descends_iff {f : Form} (used : heap.get? h = some (.form f)) (other : h ≠ k) :
    heap.Descends h k ↔ ∃ p ∈ f.parents, heap.Descends p k := by
  constructor
  · intro descends
    rcases descends.cases_head with same | ⟨_, ⟨found, member⟩, above⟩
    · exact (other (Value.form.inj same)).elim
    · cases found.symm.trans used
      exact ⟨_, member, above⟩
  · rintro ⟨p, member, above⟩
    exact .head (.parent used member) above

theorem anyM_ok {α : Type} {f : α → Except Fault Bool} {P : α → Prop} {l : List α}
    (each : ∀ a ∈ l, ∃ b, f a = .ok b ∧ (b = true ↔ P a)) :
    ∃ b, l.anyM f = .ok b ∧ (b = true ↔ ∃ a ∈ l, P a) := by
  induction l with
  | nil => exact ⟨false, rfl, by simp⟩
  | cons a rest ih =>
    obtain ⟨b, done, meaning⟩ := each a List.mem_cons_self
    obtain ⟨last, ended, some⟩ := ih fun c member => each c (List.mem_cons_of_mem _ member)
    cases b with
    | true =>
      apply Exists.intro true
      constructor
      · rw [List.anyM, done]
        rfl
      · simp [meaning.mp rfl]
    | false =>
      have wrong : ¬ P a := fun holds => by simpa using meaning.mpr holds
      apply Exists.intro last
      constructor
      · rw [List.anyM, done]
        exact ended
      · simp [wrong, some]

/-- The search for an ancestor of a form without circles above it has room enough. -/
theorem Closed.descendsWithin_ok (closed : heap.Closed) (room : Nat) (refers : heap.Refers (.form h))
    (acyclic : Acyclic heap.Parent (.form h))
    (enough : (heap.extent heap.Parent (.form h)).card ≤ room) :
    ∃ b, heap.descendsWithin k room h = .ok b ∧ (b = true ↔ heap.Descends h k) := by
  -- On the rounds: a parent leads to fewer forms than its child, as no form is above itself.
  induction room generalizing h with
  | zero =>
    have own := Finset.card_pos.mpr ⟨_, mem_extent_self (r := heap.Parent) refers rfl⟩
    omega
  | succ room ih =>
    unfold descendsWithin
    split
    · rename_i same
      exact ⟨true, rfl, by simp [same, Descends, Relation.ReflTransGen.refl]⟩
    · rename_i other
      obtain ⟨o, used, genus⟩ := (refers_form).mp refers
      cases o <;> try contradiction
      rename_i f
      have read : heap.form h = .ok f := read_some used rfl
      have above : ∀ p ∈ f.parents, ∃ b, heap.descendsWithin k room p = .ok b ∧
          (b = true ↔ heap.Descends p k) := by
        intro p member
        have step : heap.Parent (.form h) (.form p) := .parent used member
        have fewer := closed.leads_parent.extent_lt refers acyclic step
        apply ih (closed.leads_parent.refers _ _ step) (acyclic.below (.single step))
        omega
      obtain ⟨b, done, meaning⟩ := anyM_ok above
      refine ⟨b, ?_, meaning.trans (descends_iff used other).symm⟩
      rw [read]
      exact done

end Ancestry

end Heap

end JourneyMachine
