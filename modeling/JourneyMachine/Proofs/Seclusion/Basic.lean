import JourneyMachine.Proofs.Closure.Frames
import JourneyMachine.Proofs.Containers.Throws

/-! Objects that no code comes by. A slot is secluded while a pin keeps it and nothing that code can
read refers to it. Code has only what it was given and what it reads from frames, globals and objects
in use, so it finds no reference to the slot and leaves its object alone. `Run.Spares` says so of a
computation, and what is known of the references in its result. -/

namespace JourneyMachine

/-- A value refers to another slot, or to none. -/
def Value.Avoids (v : Value) (s : Handle) : Prop := v.handle? ≠ some s

def Object.Avoids (o : Object) (s : Handle) : Prop := ∀ v ∈ o.links, v.Avoids s

def Frame.Avoids (f : Frame) (s : Handle) : Prop :=
  ∀ v ∈ f.links ++ f.pattern.block.constants.toList, v.Avoids s

section Avoids

variable {s h : Handle}

@[simp] theorem Value.avoids_ni : Value.ni.Avoids s := by simp [Avoids, handle?]

@[simp] theorem Value.avoids_veracity (b : Bool) : (Value.veracity b).Avoids s := by
  simp [Avoids, handle?]

@[simp] theorem Value.avoids_numeral (n : Int64) : (Value.numeral n).Avoids s := by
  simp [Avoids, handle?]

@[simp] theorem Value.avoids_text : (Value.text h).Avoids s ↔ h ≠ s := by simp [Avoids, handle?]

@[simp] theorem Value.avoids_form : (Value.form h).Avoids s ↔ h ≠ s := by simp [Avoids, handle?]

@[simp] theorem Value.avoids_imitation : (Value.imitation h).Avoids s ↔ h ≠ s := by
  simp [Avoids, handle?]

@[simp] theorem Value.avoids_journey : (Value.journey h).Avoids s ↔ h ≠ s := by
  simp [Avoids, handle?]

@[simp] theorem Value.avoids_book : (Value.book h).Avoids s ↔ h ≠ s := by simp [Avoids, handle?]

@[simp] theorem Value.avoids_codex : (Value.codex h).Avoids s ↔ h ≠ s := by simp [Avoids, handle?]

@[simp] theorem Value.avoids_other : (Value.other h).Avoids s ↔ h ≠ s := by simp [Avoids, handle?]

@[simp] theorem Object.avoids_text (content : String) : (Object.text content).Avoids s := by
  simp [Avoids, links]

@[simp] theorem Object.avoids_book {pages : Array Value} :
    (Object.book pages).Avoids s ↔ ∀ v ∈ pages.toList, v.Avoids s := .rfl

@[simp] theorem Object.avoids_codex {entries : List (Value × Value)} :
    (Object.codex entries).Avoids s ↔ ∀ e ∈ entries, e.1.Avoids s ∧ e.2.Avoids s := by
  simp only [Avoids, links, List.mem_flatMap, List.mem_cons, List.not_mem_nil, or_false]
  constructor
  · intro all e member
    exact ⟨all e.1 ⟨e, member, .inl rfl⟩, all e.2 ⟨e, member, .inr rfl⟩⟩
  · rintro all v ⟨e, member, rfl | rfl⟩
    · exact (all e member).1
    · exact (all e member).2

@[simp] theorem Object.avoids_imitation {i : Imitation} :
    (Object.imitation i).Avoids s ↔ i.form ≠ s ∧ ∀ v ∈ i.matter.toList, v.Avoids s := by
  simp [Avoids, links]

@[simp] theorem Object.avoids_other {other : Other} :
    (Object.other other).Avoids s ↔ ∀ v ∈ other.values, v.Avoids s := .rfl

theorem Value.Avoids.expected {v : Value} {genus : Genus} (avoids : v.Avoids s)
    (same : v.expectHandle genus = .ok h) : h ≠ s := by
  rintro rfl
  unfold expectHandle at same
  split at same
  · rename_i found
    split at same
    · cases same
      exact avoids found
    · cases same
  · cases same

theorem avoids_getD {pages : Array Value} (avoid : ∀ v ∈ pages.toList, v.Avoids s) (i : Nat) :
    (pages.getD i .ni).Avoids s := by
  rw [Array.getD_eq_getD_getElem?]
  cases found : pages[i]? with
  | none => exact Value.avoids_ni
  | some v => exact avoid v (Array.mem_toList_iff.mpr (Array.mem_of_getElem? found))

end Avoids

namespace Machine

/-- A pin keeps the object of a slot, and nothing that code can read refers to it. -/
structure Secluded (s : Handle) (o : Object) (m : Machine) : Prop where
  tidy : m.heap.Tidy
  used : m.heap.get? s = some o
  pinned : ∃ v ∈ m.pinned, v.handle? = some s
  objects : ∀ h p, m.heap.get? h = some p → p.Avoids s
  globals : ∀ g ∈ m.program.globals, g.2.Avoids s
  frames : ∀ f ∈ m.frames, f.Avoids s
  exception : m.handlers.exception.Avoids s
  builtins : m.builtins.exception ≠ s ∧ m.builtins.ioError ≠ s ∧ m.builtins.heapExhausted ≠ s

namespace Secluded

variable {s h : Handle} {o : Object} {m : Machine} {f : Object → Object}

theorem root (secluded : m.Secluded s o) : s ∈ m.roots := by
  obtain ⟨v, member, found⟩ := secluded.pinned
  simp only [roots, List.mem_append, List.mem_filterMap]
  exact .inl (.inr ⟨v, member, found⟩)

theorem collect (secluded : m.Secluded s o) : m.collect.2.Secluded s o :=
  { secluded with
    tidy := secluded.tidy.collect _
    used := (Heap.get?_collect secluded.tidy (.root secluded.root secluded.used)).trans secluded.used
    objects := fun h p used => secluded.objects h p (Heap.get?_of_collect secluded.tidy used).2 }

theorem modify (secluded : m.Secluded s o) (other : h ≠ s)
    (keeps : ∀ p, p.Avoids s → (f p).Avoids s) :
    ({ m with heap := m.heap.modify h f } : Machine).Secluded s o :=
  { secluded with
    tidy := secluded.tidy.modify h f
    used := by rw [Heap.get?_modify, if_neg other.symm, secluded.used]
    objects := by
      intro k p used
      rw [Heap.get?_modify] at used
      split at used
      · obtain ⟨before, there, rfl⟩ := Option.map_eq_some_iff.mp used
        exact keeps before (secluded.objects h before there)
      · exact secluded.objects k p used }

theorem remove (secluded : m.Secluded s o) (other : h ≠ s)
    (keeps : ∀ p, p.Avoids s → (f p).Avoids s) (removals : List (Handle × Nat)) :
    ({ m with heap := m.heap.modify h f, removals } : Machine).Secluded s o :=
  { secluded.modify other keeps with }

theorem pin (secluded : m.Secluded s o) (values : List Value) : (m.pin values).Secluded s o :=
  { secluded with
    pinned := by
      obtain ⟨v, member, found⟩ := secluded.pinned
      exact ⟨v, List.mem_append_right values member, found⟩ }

theorem throw (secluded : m.Secluded s o) {v : Value} (avoids : v.Avoids s) :
    ({ m with handlers := m.handlers.throw v } : Machine).Secluded s o :=
  { secluded with exception := avoids }

theorem enter (secluded : m.Secluded s o) {p : Pattern} (other : h ≠ s)
    (constants : ∀ v ∈ p.block.constants.toList, v.Avoids s) : (m.enter h p).Secluded s o :=
  { secluded with
    frames := by
      intro f member
      rcases List.mem_cons.mp member with rfl | older
      · intro v there
        simp only [Frame.links, Frame.start, Array.toList_replicate, List.cons_append,
          List.mem_cons, List.mem_append, List.mem_replicate] at there
        rcases there with rfl | ⟨_, rfl⟩ | constant
        · exact (Value.avoids_journey).mpr other
        · exact Value.avoids_ni
        · exact constants v constant
      · exact secluded.frames f older }

theorem unwindTo (secluded : m.Secluded s o) (depth : Nat) : (m.unwindTo depth).Secluded s o :=
  { secluded with frames := fun f member => secluded.frames f (List.mem_of_mem_drop member) }

end Secluded

end Machine

namespace Run

variable {α β : Type} {s : Handle} {env : Env}

/-- How a computation that spares a slot ends, unless it is for good. -/
def Spared (s : Handle) (o : Object) (pins : List Value) (P : α → Prop) :
    EStateM.Result Unwind Machine α → Prop
  | .ok a m => m.Secluded s o ∧ m.pinned = pins ∧ P a
  | .error .thrown m => m.Secluded s o ∧ m.pinned = pins
  | .error _ _ => True

/-- A computation leaves alone what is secluded in the slot, whatever it is. -/
def Spares (s : Handle) (env : Env) (c : Run α) (P : α → Prop := fun _ => True) : Prop :=
  ∀ o m, m.Secluded s o → Spared s o m.pinned P (c env m)

section Rules

variable {c d : Run α} {k : α → Run β} {P : α → Prop} {Q : β → Prop}

theorem Spares.bind (first : Spares s env c P) (next : ∀ a, P a → Spares s env (k a) Q) :
    Spares s env (c >>= k) Q := by
  intro o m secluded
  have outcome := first o m secluded
  rcases same : c env m with ⟨a, m₁⟩ | ⟨unwind, m₁⟩ <;> rw [same] at outcome
  · obtain ⟨still, pins, post⟩ := outcome
    rw [bind_ok same, ← pins]
    exact next a post o m₁ still
  · rw [bind_error same]
    cases unwind <;> exact outcome

theorem Spares.weaken (spares : Spares s env c P) {R : α → Prop} (post : ∀ a, P a → R a) :
    Spares s env c R := by
  intro o m secluded
  have outcome := spares o m secluded
  rcases same : c env m with ⟨a, m₁⟩ | ⟨_ | _ | _, m₁⟩ <;> rw [same] at outcome
  · exact ⟨outcome.1, outcome.2.1, post a outcome.2.2⟩
  · exact outcome
  · trivial
  · trivial

theorem Spares.pure {a : α} (post : P a) : Spares s env (Pure.pure a) P :=
  fun _ _ secluded => ⟨secluded, rfl, post⟩

theorem Spares.fail {fault : Fault} : Spares s env (Run.fail fault : Run α) P :=
  fun _ _ _ => trivial

theorem Spares.ite {test : Prop} [Decidable test] (holds : Spares s env c P)
    (fails : Spares s env d P) : Spares s env (if test then c else d) P := by
  split
  · exact holds
  · exact fails

theorem Spares.discard (spares : Spares s env c P) : Spares s env (Functor.discard c) :=
  spares.bind (k := fun _ => Pure.pure ()) fun _ _ => .pure trivial

/-- What is read of the machine is known of every machine in which the slot is secluded. -/
theorem Spares.get {k : Machine → Run β}
    (next : ∀ o m, m.Secluded s o → Spares s env (k m) Q) :
    Spares s env (MonadState.get >>= k) Q :=
  fun o m secluded => next o m secluded o m secluded

theorem Spares.read {k : Env → Run β} (next : Spares s env (k env) Q) :
    Spares s env (MonadReader.read >>= k) Q := next

theorem Spares.modify {f : Machine → Machine}
    (keeps : ∀ o m, m.Secluded s o → (f m).Secluded s o ∧ (f m).pinned = m.pinned) :
    Spares s env (modify f : Run PUnit) := by
  intro o m secluded
  obtain ⟨still, pins⟩ := keeps o m secluded
  exact ⟨still, pins, trivial⟩

theorem Spares.exchange (request : Host.Platform → Host.Exchange α) :
    Spares s env (Run.exchange request) :=
  fun _ _ secluded => ⟨{ secluded with }, rfl, trivial⟩

theorem Spares.onHeap {f : Heap → Except Fault α}
    (found : ∀ heap : Heap, (∀ h p, heap.get? h = some p → p.Avoids s) →
      ∀ a, f heap = .ok a → P a) : Spares s env (onHeap f) P := by
  intro o m secluded
  unfold Run.onHeap
  cases looked : f m.heap with
  | ok a => exact ⟨secluded, rfl, found m.heap secluded.objects a looked⟩
  | error fault => exact trivial

theorem Spares.ofExcept {x : Except Fault α} (post : ∀ a, x = .ok a → P a) :
    Spares s env (ofExcept x) P := by
  cases x with
  | ok a => exact .pure (post a rfl)
  | error fault => exact .fail

theorem Spares.raise {v : Value} (avoids : v.Avoids s) : Spares s env (Run.raise v : Run α) P :=
  fun _ _ secluded => ⟨secluded.throw avoids, rfl⟩

theorem Spares.allocate {object : Object} (avoids : object.Avoids s) :
    Spares s env (Run.allocate object) (· ≠ s) := by
  intro o m secluded
  cases same : m.heap.allocate object m.roots with
  | mk result heap =>
    obtain ⟨retains, placed⟩ := secluded.tidy.retains_allocate object same
    have reachable : m.heap.Reachable (m.roots ++ object.children) s :=
      .root (List.mem_append_left _ secluded.root) secluded.used
    have still : ({ m with heap } : Machine).Secluded s o :=
      { secluded with
        tidy := retains.tidy
        used := (retains.kept s reachable).trans secluded.used
        objects := by
          intro h p used
          rcases Heap.allocate_made secluded.tidy same used with before | ⟨_, rfl⟩
          · exact secluded.objects h p before
          · exact avoids }
    rw [Machine.roots_eq] at same
    rw [allocate_eq, same]
    cases result with
    | ok h =>
      refine ⟨still, rfl, ?_⟩
      rintro rfl
      exact (placed h rfl).2 reachable
    | error rejected =>
      exact ⟨still.throw ((Value.avoids_imitation).mpr secluded.builtins.2.2), rfl⟩

theorem Spares.withPinned {values : List Value} (body : Spares s env c P) :
    Spares s env (withPinned values c) P := by
  intro o m secluded
  have outcome := body o (m.pin values) (secluded.pin values)
  -- The pins that were there before keep the slot once the new ones are released.
  have released : ∀ {m' : Machine}, m'.Secluded s o → m'.pinned = (m.pin values).pinned →
      (m'.unpin m.pinned.length).Secluded s o ∧ (m'.unpin m.pinned.length).pinned = m.pinned := by
    intro m' still pins
    have back : (m'.unpin m.pinned.length).pinned = m.pinned :=
      (congrArg (oldest m.pinned.length) pins).trans (oldest_append ..)
    refine ⟨{ still with pinned := ?_ }, back⟩
    rw [back]
    exact secluded.pinned
  rw [withPinned_eq]
  rcases same : c env (m.pin values) with ⟨a, m'⟩ | ⟨_ | _ | _, m'⟩ <;> rw [same] at outcome
  · obtain ⟨still, pins, post⟩ := outcome
    exact ⟨(released still pins).1, (released still pins).2, post⟩
  · exact released outcome.1 outcome.2
  · trivial
  · trivial

theorem Spares.withFrame {h : Handle} {p : Pattern} (other : h ≠ s)
    (constants : ∀ v ∈ p.block.constants.toList, v.Avoids s) (body : Spares s env c P) :
    Spares s env (withFrame h p c) P := by
  intro o m secluded
  have outcome := body o (m.enter h p) (secluded.enter other constants)
  rw [withFrame_eq]
  rcases same : c env (m.enter h p) with ⟨a, m'⟩ | ⟨_ | _ | _, m'⟩ <;> rw [same] at outcome
  · exact ⟨outcome.1.unwindTo _, outcome.2⟩
  · exact ⟨outcome.1.unwindTo _, outcome.2⟩
  · trivial
  · trivial

theorem Spares.mapM {f : α → Run β} {values : List α}
    (each : ∀ a ∈ values, Spares s env (f a)) : Spares s env (values.mapM f) := by
  induction values with
  | nil => exact .pure trivial
  | cons a values ih =>
    rw [List.mapM_cons]
    refine (each a (List.mem_cons_self ..)).bind fun _ _ => ?_
    exact (ih fun b member => each b (List.mem_cons_of_mem _ member)).bind fun _ _ => .pure trivial

theorem Spares.anyM {f : α → Run Bool} {values : List α}
    (each : ∀ a ∈ values, Spares s env (f a)) : Spares s env (values.anyM f) := by
  induction values with
  | nil => exact .pure trivial
  | cons a values ih =>
    refine (each a (List.mem_cons_self ..)).bind fun found _ => ?_
    cases found
    · exact ih fun b member => each b (List.mem_cons_of_mem _ member)
    · exact .pure trivial

end Rules

end Run

/-- Calls spare the slot if they are given no reference to it, and return none. -/
def Env.Spares (env : Env) (s : Handle) : Prop :=
  ∀ callee args, callee.Avoids s → (∀ v ∈ args.values, v.Avoids s) →
    Run.Spares s env (fun _ => env.call callee args) (·.Avoids s)

theorem Run.Spares.call {s : Handle} {env : Env} (calls : env.Spares s) {callee : Value}
    {args : List Value} (avoids : callee.Avoids s) (given : ∀ v ∈ args, v.Avoids s) :
    Run.Spares s env (call callee args) (·.Avoids s) :=
  calls callee (.ofList args) avoids (by simpa [Arguments.values, Arguments.ofList] using given)

end JourneyMachine
