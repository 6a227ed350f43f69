import JourneyMachine.Proofs.Closure.Contracts
import JourneyMachine.Proofs.Image.Descriptions

/-! The rooting of a load. Everything that a load makes is pinned at once and refers to nothing but
what is pinned and what was rooted before. So at any time the slots that the roots lead to are those
of the machine before the load and those that the load has taken, and an allocation fails exactly
if these are all the slots there are. -/

namespace JourneyMachine

namespace Machine

/-- How many slots the roots lead to. -/
noncomputable def reachableCount (m : Machine) : Nat := {h | m.heap.Reachable m.roots h}.ncard

/-- A machine under a load that started from `m₀` and has placed these objects. -/
structure Rooted (m₀ : Machine) (placed : List Handle) (m : Machine) : Prop where
  tidy : m.heap.Tidy
  capacity : m.heap.capacity = m₀.heap.capacity
  pinned : m₀.pinned <:+ m.pinned
  builtins : m.builtins = m₀.builtins
  roots : ∀ h, h ∈ m.roots ↔ h ∈ m₀.roots ∨ h ∈ placed
  distinct : placed.Nodup
  fresh : ∀ h ∈ placed, ¬ m₀.heap.Reachable m₀.roots h
  live : ∀ h ∈ placed, ∃ o, m.heap.get? h = some o
  kept : ∀ h, m₀.heap.Reachable m₀.roots h → m.heap.get? h = m₀.heap.get? h
  known : ∀ h o, m.heap.get? h = some o → h ∈ placed ∨ ∃ p, m₀.heap.get? h = some p
  inner : ∀ h ∈ placed, ∀ o, m.heap.get? h = some o → ∀ k ∈ o.children, k ∈ m₀.roots ∨ k ∈ placed
  plain : ∀ h ∈ placed, ∀ o, m.heap.get? h = some o → o.genus ≠ .imitation

theorem mem_roots_pinned {m : Machine} {heap : Heap} {v : Value} {k : Handle} :
    k ∈ ({ m with heap, pinned := v :: m.pinned } : Machine).roots ↔
      k ∈ m.roots ∨ v.handle? = some k := by
  simp only [roots, List.mem_append, List.mem_filterMap, List.exists_mem_cons_iff]
  grind

theorem mem_roots_defineGlobal {m : Machine} {name : String} {v : Value} {k : Handle} :
    k ∈ (m.defineGlobal name v).roots ↔ k ∈ m.roots ∨ v.handle? = some k := by
  simp only [roots, defineGlobal, Program.define, Program.handles, Array.toList_push,
    List.mem_append, List.mem_filterMap, List.mem_singleton, or_and_right, exists_or,
    exists_eq_left]
  grind

namespace Rooted

variable {m₀ m : Machine} {placed : List Handle} {h : Handle}

theorem start (tidy : m.heap.Tidy) : Rooted m [] m where
  tidy := tidy
  capacity := rfl
  pinned := List.suffix_rfl
  builtins := rfl
  roots h := by simp
  distinct := List.nodup_nil
  fresh := by simp
  live := by simp
  kept _ _ := rfl
  known h o used := .inr ⟨o, used⟩
  inner := by simp
  plain := by simp

/-- A root that is in use is one of the machine before or was placed. -/
theorem reachable_of_root (rooted : Rooted m₀ placed m) {o : Object} (used : m.heap.get? h = some o)
    (root : h ∈ m₀.roots ∨ h ∈ placed) : m₀.heap.Reachable m₀.roots h ∨ h ∈ placed := by
  rcases root with before | there
  · rcases rooted.known h o used with there | ⟨p, inUse⟩
    · exact .inr there
    · exact .inl (.root before inUse)
  · exact .inr there

theorem reachable_iff (rooted : Rooted m₀ placed m) :
    m.heap.Reachable m.roots h ↔ m₀.heap.Reachable m₀.roots h ∨ h ∈ placed := by
  constructor
  · intro reachable
    induction reachable with
    | root member used => exact rooted.reachable_of_root used ((rooted.roots _).mp member)
    | @child h k o p _ parent member used ih =>
      rcases ih with before | there
      · have parent : m₀.heap.get? h = some o := (rooted.kept h before).symm.trans parent
        rcases rooted.known k p used with there | ⟨q, inUse⟩
        · exact .inr there
        · exact .inl (.child before parent member inUse)
      · exact rooted.reachable_of_root used (rooted.inner h there o parent k member)
  · rintro (before | there)
    · induction before with
      | root member used =>
        have kept := rooted.kept _ (.root member used)
        exact .root ((rooted.roots _).mpr (.inl member)) (kept.trans used)
      | child reachable parent member used ih =>
        have above := rooted.kept _ reachable
        have below := rooted.kept _ (.child reachable parent member used)
        exact .child ih (above.trans parent) member (below.trans used)
    · obtain ⟨o, used⟩ := rooted.live h there
      exact .root ((rooted.roots h).mpr (.inr there)) used

/-- The slots below a number are so many. -/
theorem slots_below (n : Nat) :
    {h : Handle | h.slot < n} = ((Finset.range n).image Handle.mk :) := by
  ext ⟨i⟩
  simp

theorem ncard_below (n : Nat) : {h : Handle | h.slot < n}.ncard = n := by
  have injective : Function.Injective Handle.mk := fun _ _ => Handle.mk.inj
  rw [slots_below, Set.ncard_coe_finset, Finset.card_image_of_injective _ injective,
    Finset.card_range]

theorem reachable_below (m : Machine) :
    {h | m.heap.Reachable m.roots h} ⊆ {h | h.slot < m.heap.capacity} := by
  intro h reachable
  obtain ⟨o, used⟩ := Arena.Reachable.inUse reachable
  exact Heap.lt_capacity used

theorem finite_below (n : Nat) : {h : Handle | h.slot < n}.Finite := by
  rw [slots_below]
  exact Finset.finite_toSet _

/-- The slots that the roots lead to are counted by the machine before the load. -/
theorem count (rooted : Rooted m₀ placed m) :
    m.reachableCount = m₀.reachableCount + placed.length := by
  have split : {h | m.heap.Reachable m.roots h} =
      {h | m₀.heap.Reachable m₀.roots h} ∪ (placed.toFinset : Set Handle) := by
    ext h
    simp [rooted.reachable_iff]
  have apart : Disjoint {h | m₀.heap.Reachable m₀.roots h} (placed.toFinset : Set Handle) := by
    refine Set.disjoint_left.mpr fun h before there => ?_
    exact rooted.fresh h (List.mem_toFinset.mp there) before
  have finite := (finite_below _).subset (reachable_below m₀)
  rw [reachableCount, split, Set.ncard_union_eq apart finite (Finset.finite_toSet _),
    Set.ncard_coe_finset, List.toFinset_card_of_nodup rooted.distinct]
  rfl

theorem fits (rooted : Rooted m₀ placed m) :
    m₀.reachableCount + placed.length ≤ m₀.heap.capacity := by
  rw [← rooted.count, ← rooted.capacity, ← ncard_below m.heap.capacity]
  exact Set.ncard_le_ncard (reachable_below m) (finite_below _)

/-- If every slot is needed, there is no room for another object. -/
theorem full (rooted : Rooted m₀ placed m)
    (all : ∀ i < m.heap.capacity, m.heap.Reachable m.roots ⟨i⟩) :
    m₀.heap.capacity ≤ m₀.reachableCount + placed.length := by
  rw [← rooted.count, ← rooted.capacity, ← ncard_below m.heap.capacity]
  refine Set.ncard_le_ncard (fun h inside => all h.slot inside) ?_
  exact (finite_below _).subset (reachable_below m)

/-- What was placed later is not what was placed before. -/
theorem apart {new : List Handle} (rooted : Rooted m₀ (placed ++ new) m) (there : h ∈ placed) :
    ∀ k ∈ new, k ∉ [h] := by
  intro k later same
  have other := (List.nodup_append.mp rooted.distinct).2.2 h there k later
  exact other (List.mem_singleton.mp same).symm

/-- An object without children is placed and pinned. -/
theorem place (rooted : Rooted m₀ placed m) {object : Object} {heap : Heap} {v : Value}
    (childless : object.children = []) (pin : v.handle? = some h)
    (done : m.heap.allocate object m.roots = (.ok h, heap)) :
    Rooted m₀ (placed ++ [h]) { m with heap, pinned := v :: m.pinned } := by
  have contract := Heap.allocate_meets rooted.tidy object m.roots
  have tidy := rooted.tidy.allocate object m.roots
  have capacity := Heap.allocate_capacity rooted.tidy object m.roots
  rw [done] at contract tidy capacity
  obtain ⟨lost, there, _⟩ := contract.placed h rfl
  have kept := contract.kept
  rw [childless, List.append_nil] at lost kept
  have new : ¬ m₀.heap.Reachable m₀.roots h ∧ h ∉ placed := by
    rwa [rooted.reachable_iff, not_or] at lost
  have same : ∀ k ∈ placed, heap.get? k = m.heap.get? k := fun k member =>
    kept k (rooted.reachable_iff.mpr (.inr member))
  refine ⟨tidy, capacity.trans rooted.capacity, rooted.pinned.trans (List.suffix_cons ..),
    rooted.builtins, fun k => ?_, ?_, ?_, ?_, ?_, ?_, ?_, ?_⟩
  · rw [mem_roots_pinned, rooted.roots, pin, List.mem_append, List.mem_singleton, or_assoc,
      Option.some.injEq, eq_comm]
  · exact List.nodup_append.mpr ⟨rooted.distinct, List.nodup_singleton h, by grind⟩
  · exact List.forall_mem_append.mpr ⟨rooted.fresh, by simpa using new.1⟩
  · refine List.forall_mem_append.mpr ⟨fun k member => ?_, by simpa using ⟨object, there⟩⟩
    rw [same k member]
    exact rooted.live k member
  · intro k before
    rw [← rooted.kept k before]
    exact kept k (rooted.reachable_iff.mpr (.inl before))
  · intro k o used
    rcases Heap.allocate_made rooted.tidy done used with before | ⟨here, _⟩
    · exact (rooted.known k o before).imp_left (List.mem_append_left _)
    · cases here
      exact .inl (List.mem_append_right _ (List.mem_singleton_self h))
  · intro k member o used
    rcases List.mem_append.mp member with before | here
    · rw [same k before] at used
      intro child inside
      exact (rooted.inner k before o used child inside).imp_right (List.mem_append_left _)
    · cases List.mem_singleton.mp here
      cases there.symm.trans used
      simp [childless]
  · intro k member o used
    rcases List.mem_append.mp member with before | here
    · rw [same k before] at used
      exact rooted.plain k before o used
    · cases List.mem_singleton.mp here
      cases there.symm.trans used
      -- An imitation has its form for a child.
      cases object <;> simp_all [Object.genus, Object.children]

/-- An object that was placed is replaced by one of its genus that refers to nothing new. -/
theorem edit (rooted : Rooted m₀ placed m) (there : h ∈ placed) {f : Object → Object} {o : Object}
    (used : m.heap.get? h = some o) (genus : (f o).genus = o.genus)
    (holds : ∀ k ∈ (f o).children, k ∈ m₀.roots ∨ k ∈ placed) :
    Rooted m₀ placed { m with heap := m.heap.modify h f } := by
  -- Only the slot in question changes, and it was placed.
  have others : ∀ k, k ≠ h → (m.heap.modify h f).get? k = m.heap.get? k := by
    intro k other
    rw [Heap.get?_modify, if_neg other]
  have here : (m.heap.modify h f).get? h = some (f o) := by
    rw [Heap.get?_modify, if_pos rfl, used, Option.map_some]
  refine ⟨rooted.tidy.modify h f, ?_, rooted.pinned, rooted.builtins, rooted.roots,
    rooted.distinct, rooted.fresh, fun k member => ?_, fun k before => ?_, fun k p inUse => ?_,
    fun k member p inUse => ?_, fun k member p inUse => ?_⟩
  · rw [← rooted.capacity]
    simp [Heap.modify, Arena.modify, Heap.capacity, Arena.capacity]
  · by_cases same : k = h
    · exact ⟨f o, by rw [same, here]⟩
    · rw [others k same]
      exact rooted.live k member
  · rw [others k (fun same => rooted.fresh h there (same ▸ before)), rooted.kept k before]
  · by_cases same : k = h
    · exact .inl (same ▸ there)
    · rw [others k same] at inUse
      exact rooted.known k p inUse
  · by_cases same : k = h
    · rw [same, here] at inUse
      cases inUse
      exact holds
    · rw [others k same] at inUse
      exact rooted.inner k member p inUse
  · by_cases same : k = h
    · rw [same, here] at inUse
      cases inUse
      rw [genus]
      exact rooted.plain h there o used
    · rw [others k same] at inUse
      exact rooted.plain k member p inUse

theorem defineGlobal (rooted : Rooted m₀ placed m) (name : String) {v : Value}
    (holds : ∀ k, v.handle? = some k → k ∈ m₀.roots ∨ k ∈ placed) :
    Rooted m₀ placed (m.defineGlobal name v) := by
  refine { rooted with roots := fun k => ?_ }
  rw [mem_roots_defineGlobal, rooted.roots]
  exact or_iff_left_of_imp (holds k)

end Rooted

/-- A computation leaves the program alone, and of these objects all but those it edits. -/
structure Spares (placed edits : List Handle) (m m' : Machine) : Prop where
  program : m'.program = m.program
  same : ∀ h ∈ placed, h ∉ edits → m'.heap.get? h = m.heap.get? h

namespace Spares

variable {placed new edits more : List Handle} {m m₁ m₂ : Machine}

theorem refl : Spares placed edits m m := ⟨rfl, fun _ _ _ => rfl⟩

theorem trans (first : Spares placed edits m m₁) (second : Spares placed edits m₁ m₂) :
    Spares placed edits m m₂ where
  program := second.program.trans first.program
  same h member other := (second.same h member other).trans (first.same h member other)

theorem of_append (spares : Spares (placed ++ new) edits m m₁) : Spares placed edits m m₁ where
  program := spares.program
  same h member other := spares.same h (List.mem_append_left new member) other

theorem mono (spares : Spares placed edits m m₁) (sub : ∀ h ∈ placed, h ∈ edits → h ∈ more) :
    Spares placed more m m₁ where
  program := spares.program
  same h member other := spares.same h member fun edited => other (sub h member edited)

end Spares

end Machine

namespace Run

open Machine (Rooted Spares)

variable {α β : Type} {m₀ m : Machine} {env : Env} {valid valid' : Prop} {cost cost' : Nat}
  {placed edits : List Handle} {c : Run α} {k : α → Run β}

/-- A computation of a load succeeds exactly if what it asks for is valid and there is room for the
objects it makes, and however it ends, the pins of the machine before the load are still there. -/
def Provides (m₀ : Machine) (env : Env) (valid : Prop) (cost : Nat) (c : Run α)
    (placed : List Handle) (m : Machine) (Q : α → Machine → List Handle → Prop) : Prop :=
  m₀.Rooted placed m →
  match c env m with
  | .ok a m' => valid ∧ ∃ new, new.length = cost ∧ m₀.Rooted (placed ++ new) m' ∧ Q a m' new
  | .error unwind m' => unwind ≠ .halted ∧ m₀.pinned <:+ m'.pinned ∧
      ¬ (valid ∧ m₀.reachableCount + placed.length + cost ≤ m₀.heap.capacity)

section Provides

variable {Q Q' : α → Machine → List Handle → Prop}

theorem Provides.intro (provides : m₀.Rooted placed m → Provides m₀ env valid cost c placed m Q) :
    Provides m₀ env valid cost c placed m Q := fun rooted => provides rooted rooted

theorem Provides.weaken (provides : Provides m₀ env valid cost c placed m Q)
    (same : valid ↔ valid') (equal : cost = cost')
    (imp : ∀ a m' new, m₀.Rooted (placed ++ new) m' → Q a m' new → Q' a m' new) :
    Provides m₀ env valid' cost' c placed m Q' := by
  intro rooted
  have outcome := provides rooted
  subst equal
  cases done : c env m with
  | ok a m' =>
    rw [done] at outcome
    obtain ⟨holds, new, length, still, post⟩ := outcome
    exact ⟨same.mp holds, new, length, still, imp a m' new still post⟩
  | error unwind m' =>
    rw [done] at outcome
    obtain ⟨awake, pinned, fails⟩ := outcome
    exact ⟨awake, pinned, fun both => fails ⟨same.mpr both.1, both.2⟩⟩

theorem Provides.congr (provides : Provides m₀ env valid cost c placed m Q) (same : valid ↔ valid')
    (equal : cost = cost') : Provides m₀ env valid' cost' c placed m Q :=
  provides.weaken same equal fun _ _ _ _ post => post

theorem Provides.bind {valid₁ valid₂ : Prop} {cost₁ cost₂ : Nat}
    {Q₁ : α → Machine → List Handle → Prop} {Q : β → Machine → List Handle → Prop}
    (first : Provides m₀ env valid₁ cost₁ c placed m Q₁)
    (next : ∀ a m' new, Q₁ a m' new → Provides m₀ env valid₂ cost₂ (k a) (placed ++ new) m'
      fun b m'' more => Q b m'' (new ++ more)) :
    Provides m₀ env (valid₁ ∧ valid₂) (cost₁ + cost₂) (c >>= k) placed m Q := by
  intro rooted
  have outcome := first rooted
  cases done : c env m with
  | error unwind m' =>
    rw [done] at outcome
    rw [bind_error done]
    obtain ⟨awake, pinned, fails⟩ := outcome
    refine ⟨awake, pinned, fun both => fails ⟨both.1.1, ?_⟩⟩
    omega
  | ok a m' =>
    rw [done] at outcome
    rw [bind_ok done]
    obtain ⟨holds, new, length, still, post⟩ := outcome
    have rest := next a m' new post still
    -- Where the second part fails, the first has used up room that the whole needs.
    cases ended : k a env m' with
    | ok b m'' =>
      rw [ended] at rest
      obtain ⟨holds', more, length', still', post'⟩ := rest
      refine ⟨⟨holds, holds'⟩, new ++ more, ?_, ?_, post'⟩
      · rw [List.length_append, length, length']
      · rwa [← List.append_assoc]
    | error unwind m'' =>
      rw [ended] at rest
      obtain ⟨awake, pinned, fails⟩ := rest
      refine ⟨awake, pinned, fun both => fails ⟨both.1.2, ?_⟩⟩
      rw [List.length_append]
      omega

theorem Provides.pure {a : α} (post : Q a m []) : Provides m₀ env True 0 (Pure.pure a) placed m Q :=
  fun rooted => ⟨trivial, [], rfl, by rwa [List.append_nil], post⟩

/-- Nothing is asked for, and there is nothing to do. -/
theorem Provides.idle {a : α} (holds : valid) (post : Q a m []) :
    Provides m₀ env valid 0 (Pure.pure a) placed m Q :=
  (Provides.pure post).congr (iff_of_true trivial holds) rfl

/-- A look-up in what was placed, or in the heap. -/
theorem Provides.ofExcept {x : Except Fault α} (found : valid ↔ ∃ a, x = .ok a)
    (post : ∀ a, x = .ok a → Q a m []) : Provides m₀ env valid 0 (ofExcept x) placed m Q := by
  intro rooted
  cases x with
  | ok a => exact ⟨found.mpr ⟨a, rfl⟩, [], rfl, by rwa [List.append_nil], post a rfl⟩
  | error fault =>
    refine ⟨nofun, rooted.pinned, fun both => ?_⟩
    obtain ⟨a, same⟩ := found.mp both.1
    contradiction

theorem Provides.modify {f : Machine → Machine} {k : PUnit → Run β}
    {Q : β → Machine → List Handle → Prop} (still : m₀.Rooted placed m → m₀.Rooted placed (f m))
    (next : Provides m₀ env valid cost (k ⟨⟩) placed (f m) Q) :
    Provides m₀ env valid cost (modify f >>= k) placed m Q := fun rooted => next (still rooted)

end Provides

/-- A computation of a load that changes nothing but the objects it edits. -/
def Builds (m₀ : Machine) (env : Env) (edits : List Handle) (valid : Prop) (cost : Nat) (c : Run α)
    (placed : List Handle) (m : Machine) (Q : α → Machine → List Handle → Prop) : Prop :=
  Provides m₀ env valid cost c placed m fun a m' new => Spares placed edits m m' ∧ Q a m' new

section Builds

variable {Q Q' : α → Machine → List Handle → Prop}

theorem Builds.weaken (builds : Builds m₀ env edits valid cost c placed m Q)
    (same : valid ↔ valid') (equal : cost = cost')
    (imp : ∀ a m' new, m₀.Rooted (placed ++ new) m' → Spares placed edits m m' → Q a m' new →
      Q' a m' new) : Builds m₀ env edits valid' cost' c placed m Q' :=
  Provides.weaken builds same equal fun a m' new still post =>
    ⟨post.1, imp a m' new still post.1 post.2⟩

theorem Builds.congr (builds : Builds m₀ env edits valid cost c placed m Q) (same : valid ↔ valid')
    (equal : cost = cost') : Builds m₀ env edits valid' cost' c placed m Q :=
  builds.weaken same equal fun _ _ _ _ _ post => post

/-- A computation that edits less, among others that edit more. -/
theorem Builds.among {more : List Handle} (builds : Builds m₀ env edits valid cost c placed m Q)
    (sub : ∀ h ∈ edits, h ∈ more) :
    Builds m₀ env more valid cost c placed m
      fun a m' new => Spares placed edits m m' ∧ Q a m' new :=
  Provides.weaken builds Iff.rfl rfl fun _ _ _ _ post => ⟨post.1.mono fun h _ => sub h, post⟩

theorem Builds.bind {valid₁ valid₂ : Prop} {cost₁ cost₂ : Nat}
    {Q₁ : α → Machine → List Handle → Prop} {Q : β → Machine → List Handle → Prop}
    (first : Builds m₀ env edits valid₁ cost₁ c placed m Q₁)
    (next : ∀ a m' new, Spares placed edits m m' → Q₁ a m' new →
      Builds m₀ env edits valid₂ cost₂ (k a) (placed ++ new) m'
        fun b m'' more => Q b m'' (new ++ more)) :
    Builds m₀ env edits (valid₁ ∧ valid₂) (cost₁ + cost₂) (c >>= k) placed m Q := by
  refine Provides.bind first fun a m' new post => ?_
  refine Provides.weaken (next a m' new post.1 post.2) Iff.rfl rfl fun b m'' more _ after => ?_
  exact ⟨post.1.trans after.1.of_append, after.2⟩

theorem Builds.pure {a : α} (post : Q a m []) :
    Builds m₀ env edits True 0 (Pure.pure a) placed m Q :=
  Provides.pure ⟨.refl, post⟩

theorem Builds.idle {a : α} (holds : valid) (post : Q a m []) :
    Builds m₀ env edits valid 0 (Pure.pure a) placed m Q :=
  Provides.idle holds ⟨.refl, post⟩

/-- A computation that makes nothing, followed by another one. -/
theorem Builds.step {Q₁ : α → Machine → List Handle → Prop} {Q : β → Machine → List Handle → Prop}
    (first : Builds m₀ env edits True 0 c placed m Q₁)
    (next : ∀ a m', Spares placed edits m m' → Q₁ a m' [] →
      Builds m₀ env edits valid cost (k a) placed m' Q) :
    Builds m₀ env edits valid cost (c >>= k) placed m Q := by
  have nothing : Builds m₀ env edits True 0 c placed m fun a m' new => Q₁ a m' new ∧ new = [] := by
    intro rooted
    have outcome := first rooted
    cases done : c env m with
    | ok a m' =>
      rw [done] at outcome
      obtain ⟨_, new, none, still, spares, post⟩ := outcome
      exact ⟨trivial, new, none, still, spares, post, List.length_eq_zero_iff.mp none⟩
    | error unwind m' =>
      rw [done] at outcome
      exact outcome
  refine Provides.weaken (Builds.bind (Q := Q) nothing ?_) (iff_of_eq (true_and valid))
    (Nat.zero_add cost) fun _ _ _ _ post => post
  rintro a m' _ spares ⟨post, rfl⟩
  rw [List.append_nil]
  exact next a m' spares post

theorem Builds.map {f : α → β} {Q₁ : α → Machine → List Handle → Prop}
    {Q : β → Machine → List Handle → Prop} (builds : Builds m₀ env edits valid cost c placed m Q₁)
    (imp : ∀ a m' new, m₀.Rooted (placed ++ new) m' → Spares placed edits m m' → Q₁ a m' new →
      Q (f a) m' new) :
    Builds m₀ env edits valid cost (c >>= fun a => Pure.pure (f a)) placed m Q := by
  have strong : Builds m₀ env edits valid cost c placed m fun a m' new => Q (f a) m' new :=
    builds.weaken Iff.rfl rfl imp
  refine Builds.congr (strong.bind fun a m' new _ post => .pure ?_) (and_iff_left trivial)
    (Nat.add_zero cost)
  rwa [List.append_nil]

theorem Builds.ofExcept {x : Except Fault α} (found : valid ↔ ∃ a, x = .ok a)
    (post : ∀ a, x = .ok a → Q a m []) : Builds m₀ env edits valid 0 (ofExcept x) placed m Q :=
  Provides.ofExcept found fun a same => ⟨.refl, post a same⟩

end Builds

end Run

end JourneyMachine
