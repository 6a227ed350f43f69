import JourneyMachine.Proofs.Closure.Loops

/-! Computations composed of the primitives of the machine. What a program runs is put together from
few things: steps beside the heap, allocations, collections, edits of an object, draws of the
generator and calls. A property that they have, and that sequences, pins, frames and handlers keep,
is one of every computation composed of them, by one induction. That a function of the machine is so
composed is said once, whatever the property. -/

namespace JourneyMachine

/-- What a computation works on beside it is the same in both machines. -/
structure Machine.Aside (m m' : Machine) : Prop where
  heap : m'.heap = m.heap
  builtins : m'.builtins = m.builtins
  settings : m'.settings = m.settings
  random : m'.random = m.random

namespace Run

/-- A computation composed of primitives and of computations that are given a property. It looks at
everything but the budget, and it edits no text, no imitation and no name of matter. -/
class inductive Composed (P : (α : Type) → Run α → Prop) : {α : Type} → Run α → Prop
  | given {α : Type} {c : Run α} : P α c → Composed P c
  | aside {α : Type} {c : Run α}
      (instant : ∀ env (m : Machine) n, c env (m.withBudget n) = rebudget n (c env m))
      (aside : ∀ env (m : Machine), m.Aside (after (c env m))) : Composed P c
  | allocate {object : Object} : Composed P (allocate object)
  | collect : Composed P collect
  | update {h : Handle} {f : Object → Object}
      (texts : ∀ content, f (.text content) = .text content)
      (imitations : ∀ i, f (.imitation i) = .imitation i)
      (forms : ∀ g, ∃ g', f (.form g) = .form g' ∧
        g'.matter.map (·.name) = g.matter.map (·.name)) : Composed P (update h f)
  | random : Composed P (serve .random)
  | ask {callee : Value} {args : Arguments} :
      Composed P (fun env => env.call callee args : Run Value)
  | get {α : Type} {k : Machine → Run α} (same : ∀ m n, k (m.withBudget n) = k m)
      (each : ∀ m, Composed P (k m)) : Composed P (MonadState.get >>= k)
  | bind {α β : Type} {c : Run α} {k : α → Run β} (first : Composed P c)
      (next : ∀ a, Composed P (k a)) : Composed P (c >>= k)
  | pinned {α : Type} {c : Run α} {values : List Value} (body : Composed P c) :
      Composed P (withPinned values c)
  | framed {α : Type} {c : Run α} {h : Handle} {p : Pattern} (body : Composed P c) :
      Composed P (withFrame h p c)
  | rescued {α : Type} {c handler : Run α} (first : Composed P c) (next : Composed P handler) :
      Composed P (rescue c handler)

variable {P : (α : Type) → Run α → Prop} {α β : Type} {c : Run α} {k : α → Run β}

section Combinators

instance composed_pure {a : α} : Composed P (pure a : Run α) :=
  .aside (fun _ _ _ => rfl) fun _ _ => ⟨rfl, rfl, rfl, rfl⟩

instance composed_throw {unwind : Unwind} : Composed P (throw unwind : Run α) :=
  .aside (fun _ _ _ => rfl) fun _ _ => ⟨rfl, rfl, rfl, rfl⟩

instance composed_fail {fault : Fault} : Composed P (fail fault : Run α) := composed_throw

instance composed_raise {v : Value} : Composed P (raise v : Run α) :=
  .aside (fun _ _ _ => rfl) fun _ _ => ⟨rfl, rfl, rfl, rfl⟩

instance composed_depth : Composed P depth :=
  .aside (fun _ _ _ => rfl) fun _ _ => ⟨rfl, rfl, rfl, rfl⟩

instance composed_bind [first : Composed P c] [next : ∀ a, Composed P (k a)] :
    Composed P (c >>= k) := first.bind next

instance composed_discard [inner : Composed P c] : Composed P (discard c) :=
  inferInstanceAs (Composed P (c >>= fun _ => pure ()))

theorem Composed.ite {test : Prop} [Decidable test] {d : Run α} (first : Composed P c)
    (second : Composed P d) : Composed P (if test then c else d) := by
  split
  · exact first
  · exact second

instance composed_ite {test : Prop} [Decidable test] {d : Run α} [first : Composed P c]
    [second : Composed P d] : Composed P (if test then c else d) :=
  first.ite second

/-- What is done with a value and what is done without one. -/
theorem Composed.option {c : Run (Option α)} {k : Option α → Run β} (first : Composed P c)
    (found : ∀ a, Composed P (k (some a))) (missing : Composed P (k none)) :
    Composed P (c >>= k) := by
  apply first.bind
  rintro (_ | a)
  · exact missing
  · exact found a

theorem Composed.modify {f : Machine → Machine}
    (same : ∀ m n, f (m.withBudget n) = (f m).withBudget n) (aside : ∀ m : Machine, m.Aside (f m)) :
    Composed P (modify f : Run PUnit) :=
  .aside (fun _ m n => congrArg (EStateM.Result.ok PUnit.unit) (same m n)) fun _ => aside

theorem Composed.mapM {f : α → Run β} (as : List α) (each : ∀ a, Composed P (f a)) :
    Composed P (as.mapM f) := by
  induction as with
  | nil => exact composed_pure
  | cons a as ih =>
    rw [List.mapM_cons]
    infer_instance

theorem Composed.anyM {f : α → Run Bool} (as : List α) (each : ∀ a, Composed P (f a)) :
    Composed P (as.anyM f) := by
  induction as with
  | nil => exact composed_pure
  | cons a as ih =>
    refine (each a).bind fun found => ?_
    cases found
    · exact ih
    · exact composed_pure

end Combinators

section Primitives

instance composed_ofExcept {x : Except Fault α} : Composed P (ofExcept x) := by
  cases x
  · exact composed_fail
  · exact composed_pure

instance composed_onHeap {f : Heap → Except Fault α} : Composed P (onHeap f) := by
  apply Composed.aside
  · intro env m n
    cases found : f m.heap <;> simp only [onHeap, Machine.withBudget, found, rebudget]
  · intro env m
    unfold onHeap
    split <;> exact ⟨rfl, rfl, rfl, rfl⟩

instance composed_onFrame {f : Frame → Except Fault (α × Frame)} : Composed P (onFrame f) := by
  apply Composed.aside
  · intro _ m n
    cases frames : m.frames with
    | nil => simp only [onFrame, Machine.withBudget, frames, rebudget]
    | cons frame rest =>
      cases changed : f frame <;>
        simp only [onFrame, Machine.withBudget, frames, changed, rebudget]
  · intro env m
    unfold onFrame
    split
    · exact ⟨rfl, rfl, rfl, rfl⟩
    · split <;> exact ⟨rfl, rfl, rfl, rfl⟩

instance composed_exchange {request : Host.Platform → Host.Exchange α} :
    Composed P (exchange request) :=
  .aside (fun _ _ _ => rfl) fun _ _ => ⟨rfl, rfl, rfl, rfl⟩

instance composed_allocate {object : Object} : Composed P (allocate object) := .allocate

instance composed_collect : Composed P collect := .collect

instance composed_call {callee : Value} {args : List Value} : Composed P (call callee args) :=
  .ask

instance composed_withPinned {values : List Value} [body : Composed P c] :
    Composed P (withPinned values c) := body.pinned

instance composed_withFrame {h : Handle} {p : Pattern} [body : Composed P c] :
    Composed P (withFrame h p c) := body.framed

instance composed_rescue {handler : Run α} [first : Composed P c] [next : Composed P handler] :
    Composed P (rescue c handler) := first.rescued next

instance composed_editBook {h : Handle} {f : Array Value → Array Value} :
    Composed P (editBook h f) :=
  .bind (composed_discard (c := onHeap _)) fun _ =>
    .update (fun _ => rfl) (fun _ => rfl) fun g => ⟨g, rfl, rfl⟩

instance composed_editCodex {h : Handle} {f : List (Value × Value) → List (Value × Value)} :
    Composed P (editCodex h f) :=
  .bind (composed_discard (c := onHeap _)) fun _ =>
    .update (fun _ => rfl) (fun _ => rfl) fun g => ⟨g, rfl, rfl⟩

theorem composed_editForm {h : Handle} {f : Form → Form}
    (names : ∀ g, (f g).matter.map (·.name) = g.matter.map (·.name)) :
    Composed P (editForm h f) :=
  .bind (composed_discard (c := onHeap _)) fun _ =>
    .update (fun _ => rfl) (fun _ => rfl) fun g => ⟨f g, rfl, names g⟩

end Primitives

end Run

end JourneyMachine
