import JourneyMachine.Machine.Operators
import JourneyMachine.Proofs.Closure.Primitives

namespace JourneyMachine

namespace Heap

variable {old mid new : Heap} {roots more : List Handle} {h : Handle} {o : Object}

/-- A later heap that has every object that the roots lead to. -/
structure Retains (old : Heap) (roots : List Handle) (new : Heap) : Prop where
  tidy : new.Tidy
  kept : ∀ h, old.Reachable roots h → new.get? h = old.get? h

theorem Retains.refl (tidy : old.Tidy) : old.Retains roots old := ⟨tidy, fun _ _ => rfl⟩

theorem Retains.mono (retains : old.Retains more new) (sub : ∀ h ∈ roots, h ∈ more) :
    old.Retains roots new :=
  ⟨retains.tidy, fun h reachable => retains.kept h (reachable.mono sub)⟩

theorem Retains.reachable (retains : old.Retains roots new) (reachable : old.Reachable roots h) :
    new.Reachable roots h := by
  induction reachable with
  | @root h o member used =>
    exact .root member ((retains.kept h (.root member used)).trans used)
  | @child p k o q parent used member there ih =>
    have kept : new.get? k = some q :=
      (retains.kept k (.child parent used member there)).trans there
    exact .child ih ((retains.kept p parent).trans used) member kept

theorem Retains.trans (first : old.Retains roots mid) (second : mid.Retains roots new) :
    old.Retains roots new where
  tidy := second.tidy
  kept h reachable := (second.kept h (first.reachable reachable)).trans (first.kept h reachable)

theorem Tidy.retains_collect (tidy : old.Tidy) : old.Retains roots (old.collect roots).2 :=
  ⟨tidy.collect roots, fun _ reachable => get?_collect tidy reachable⟩

theorem Tidy.retains_allocate (tidy : old.Tidy) (object : Object) {result : Except Object Handle}
    (same : old.allocate object roots = (result, new)) :
    old.Retains (roots ++ object.children) new ∧
      ∀ h, result = .ok h → new.get? h = some object ∧
        ¬ old.Reachable (roots ++ object.children) h := by
  have contract := allocate_meets tidy object roots
  have still := tidy.allocate object roots
  rw [same] at contract still
  constructor
  · exact ⟨still, contract.kept⟩
  · intro h placed
    obtain ⟨lost, there, _⟩ := contract.placed h placed
    exact ⟨there, lost⟩

end Heap

namespace Machine

variable {m m' : Machine} {o : Object} {h : Handle}

/-- An object has a slot of its own, and only the heap is new. -/
structure Allocated (m : Machine) (o : Object) (h : Handle) (m' : Machine) : Prop where
  retains : m.heap.Retains (m.roots ++ o.children) m'.heap
  outside : m' = { m with heap := m'.heap }
  object : m'.heap.get? h = some o
  fresh : ¬ m.heap.Reachable (m.roots ++ o.children) h
  capacity : m'.heap.capacity = m.heap.capacity
  known : ∀ k p, m'.heap.get? k = some p → k = h ∨ m.heap.get? k = some p

/-- An object was changed in place, and only the heap is new. -/
structure Replaced (m : Machine) (h : Handle) (o : Object) (m' : Machine) : Prop
    extends Edited m h o m' where
  outside : m' = { m with heap := m'.heap }
  capacity : m'.heap.capacity = m.heap.capacity
  tidy : m.heap.Tidy → m'.heap.Tidy

/-- A value was thrown. Only the heap and the exception slot are new. -/
structure Threw (m m' : Machine) : Prop where
  retains : m.heap.Retains m.roots m'.heap
  outside : m' = { m with
    heap := m'.heap
    handlers := m.handlers.throw m'.handlers.exception }

/-- There was no room for an object: the roots and the object lead to every slot. -/
structure Refused (m : Machine) (o : Object) (m' : Machine) : Prop extends Threw m m' where
  full : ∀ i < m.heap.capacity, m.heap.Reachable (m.roots ++ o.children) ⟨i⟩
  exception : m'.handlers.exception = .imitation m.builtins.heapExhausted

structure Complained (m : Machine) (form : Handle) (message : String) (m' : Machine) : Prop
    extends Threw m m' where
  exception : m'.handlers.exception = .imitation m.builtins.heapExhausted ∨
    ∃ i t, m'.handlers.exception = .imitation i ∧
      m'.heap.get? i = some (.imitation { form, matter := #[.text t] }) ∧
      m'.heap.get? t = some (.text message)

theorem Allocated.fresh_of_reachable (allocated : m.Allocated o h m') {k : Handle}
    (reachable : m.heap.Reachable m.roots k) : k ≠ h := by
  rintro rfl
  exact allocated.fresh (reachable.mono fun _ => List.mem_append_left _)

theorem Allocated.roots_eq (allocated : m.Allocated o h m') : m'.roots = m.roots := by
  rw [allocated.outside]
  rfl

theorem Replaced.roots_eq (replaced : m.Replaced h o m') : m'.roots = m.roots := by
  rw [replaced.outside]
  rfl

/-- An object that was changed is changed again. -/
theorem Replaced.trans {m₁ m₂ : Machine} {between : Object} (first : m.Replaced h between m₁)
    (second : m₁.Replaced h o m₂) : m.Replaced h o m₂ where
  object := second.object
  others k other := (second.others k other).trans (first.others k other)
  refers v refers := second.refers v (first.refers v refers)
  outside := by rw [second.outside, first.outside]
  capacity := second.capacity.trans first.capacity
  tidy := second.tidy ∘ first.tidy

theorem replaced {f : Object → Object} (used : m.heap.get? h = some o) (alike : o.Alike (f o)) :
    m.Replaced h (f o) { m with heap := m.heap.modify h f } :=
  ⟨edited used alike, rfl, Heap.capacity_modify, fun tidy => tidy.modify h f⟩

end Machine

namespace Run

variable {α : Type} {env : Env} {m : Machine}

theorem mem_roots_pin {values : List Value} {h : Handle} :
    h ∈ (m.pin values).roots ↔ h ∈ m.roots ∨ ∃ v ∈ values, v.handle? = some h := by
  simp only [Machine.roots, Machine.pin, List.filterMap_append, List.mem_append,
    ← List.mem_filterMap]
  tauto

theorem roots_pin {values : List Value} : ∀ h ∈ m.roots, h ∈ (m.pin values).roots :=
  fun _ member => mem_roots_pin.mpr (.inl member)

theorem allocate_cases (tidy : m.heap.Tidy) (o : Object) (env : Env) :
    (∃ h m', allocate o env m = .ok h m' ∧ m.Allocated o h m') ∨
    ∃ m', allocate o env m = .error .thrown m' ∧ m.Refused o m' := by
  have contract := Heap.allocate_meets tidy o m.roots
  have capacity := Heap.allocate_capacity tidy o m.roots
  cases same : m.heap.allocate o m.roots with
  | mk result heap =>
    obtain ⟨retains, placed⟩ := tidy.retains_allocate o same
    have made : ∀ {k p}, heap.get? k = some p → _ := Heap.allocate_made tidy same
    rw [same] at contract capacity
    rw [Machine.roots_eq] at same
    cases result with
    | ok h =>
      left
      obtain ⟨there, lost⟩ := placed h rfl
      have done : allocate o env m = .ok h { m with heap } := by rw [allocate_eq, same]
      refine ⟨h, _, done, retains, rfl, there, lost, capacity, fun k p used => ?_⟩
      rcases made used with before | ⟨new, _⟩
      · exact .inr before
      · exact .inl (Except.ok.inj new).symm
    | error rejected =>
      right
      have full : allocate o env m = .error .thrown { m with
          heap, handlers := m.handlers.throw (.imitation m.builtins.heapExhausted) } := by
        rw [allocate_eq, same]
      have all := contract.rejects.mp ⟨rejected, rfl⟩
      exact ⟨_, full, ⟨retains.mono fun _ => List.mem_append_left _, rfl⟩, all, rfl⟩

theorem throwMessage_threw (tidy : m.heap.Tidy) (form : Handle) (message : String) :
    ∃ m', (throwMessage form message : Run α) env m = .error .thrown m' ∧
      m.Complained form message m' := by
  rcases allocate_cases tidy (.text message) env with
    ⟨t, m₁, made, text⟩ | ⟨m', full, refused⟩
  · rcases allocate_cases text.retains.tidy (.imitation { form, matter := #[.text t] }) env with
      ⟨i, m₂, imitated, own⟩ | ⟨m', full, refused⟩
    · have kept : m.heap.Retains m.roots m₂.heap := by
        have later := own.retains.mono fun _ => List.mem_append_left _
        rw [text.roots_eq] at later
        exact (text.retains.mono fun _ => List.mem_append_left _).trans later
      have reachable : m₁.heap.Reachable
          (m₁.roots ++ (Object.imitation { form, matter := #[.text t] }).children) t :=
        .root (by simp [Object.children_eq, Object.links, Value.handle?]) text.object
      apply Exists.intro { m₂ with handlers := m₂.handlers.throw (.imitation i) }
      constructor
      · exact (bind_ok made).trans (bind_ok imitated)
      · refine ⟨⟨kept, ?_⟩, .inr ⟨i, t, rfl, own.object, ?_⟩⟩
        · rw [own.outside, text.outside]
          rfl
        · exact (own.retains.kept t reachable).trans text.object
    · apply Exists.intro m'
      constructor
      · exact (bind_ok made).trans (bind_error full)
      · have later := refused.retains
        rw [text.roots_eq] at later
        refine ⟨⟨(text.retains.mono fun _ => List.mem_append_left _).trans later, ?_⟩, .inl ?_⟩
        · rw [refused.outside, text.outside]
          rfl
        · rw [refused.exception, text.outside]
  · exact ⟨m', bind_error full, refused.toThrew, .inl refused.exception⟩

theorem complain_threw (tidy : m.heap.Tidy) (complaint : Complaint) :
    ∃ m', (complain complaint : Run α) env m = .error .thrown m' ∧
      m.Complained m.builtins.exception complaint.message m' :=
  throwMessage_threw tidy m.builtins.exception complaint.message

end Run

end JourneyMachine
