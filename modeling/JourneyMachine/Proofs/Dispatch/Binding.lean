import JourneyMachine.Proofs.Control.Throws
import JourneyMachine.Proofs.Dispatch.Specification

namespace JourneyMachine

open Machine (Active Within)

namespace Pattern

variable {p : Pattern} {i j r : Nat}

theorem keywordRegister_eq (p : Pattern) (i : Nat) : p.keywordRegister i =
    p.keywordRegister 0 + i := rfl

theorem keywordRegister_injective (same : p.keywordRegister i = p.keywordRegister j) : i = j :=
  Nat.add_left_cancel same

theorem lt_keywordRegister (before : r < p.keywordRegister 0) : r < p.keywordRegister i :=
  before.trans_le (Nat.le_add_right ..)

theorem positional_lt_keyword (inside : i < p.positional.length) : i < p.keywordRegister 0 := by
  simp only [keywordRegister]
  omega

theorem splatRegister_lt_keyword (has : p.splat = true) :
    p.splatRegister < p.keywordRegister 0 := by
  simp [splatRegister, keywordRegister, has]

theorem early_lt (before : r < p.keywordRegister 0) : r < p.boundRegisters :=
  (lt_keywordRegister before).trans_le (Nat.le_add_right p.splatsplatRegister _)

theorem positional_lt (inside : i < p.positional.length) : i < p.boundRegisters :=
  early_lt (positional_lt_keyword inside)

theorem splatRegister_lt (has : p.splat = true) : p.splatRegister < p.boundRegisters :=
  early_lt (splatRegister_lt_keyword has)

theorem keywordRegister_lt (inside : i < p.keywords.length) :
    p.keywordRegister i < p.boundRegisters := by
  simp only [boundRegisters, splatsplatRegister, keywordRegister]
  omega

theorem keywordIndex_lt {name : String} (found : p.keywordIndex? name = some i) :
    i < p.keywords.length :=
  (List.findIdx?_eq_some_iff_findIdx_eq.mp found).1

theorem splatsplatRegister_lt (has : p.splatsplat = true) :
    p.splatsplatRegister < p.boundRegisters := by
  simp only [boundRegisters, has, Bool.toNat_true]
  omega

end Pattern

namespace Machine

variable {m m' : Machine} {i j : Nat} {v : Value} {values more : Nat → Option Value}

section Registers

theorem slot_cons {f : Frame} {below : List Frame} (frames : m.frames = f :: below) :
    m.slot? i = f.registers[i]? := by
  simp [slot?, frames]

theorem slot_of_frames (same : m'.frames = m.frames) : m'.slot? i = m.slot? i := by
  unfold slot?
  rw [same]

theorem slot_held (found : m.slot? i = some v) : v ∈ m.held := by
  cases frames : m.frames with
  | nil => simp [slot?, frames] at found
  | cons f below =>
    rw [slot_cons frames] at found
    exact top_sub_held (mem_top frames found)

theorem slot_assign : (m.assign values).slot? i =
    (m.slot? i).map fun old => (values i).getD old := by
  cases frames : m.frames with
  | nil => simp [slot?, assign, frames]
  | cons f below => simp [slot?, assign, frames]

theorem slot_store : (m.store i v).slot? j =
    if j = i then (m.slot? j).map fun _ => v else m.slot? j := by
  rw [store, slot_assign]
  split <;> simp

theorem slot_stored (inside : (m.slot? i).isSome) : (m.store i v).slot? i = some v := by
  obtain ⟨old, found⟩ := Option.isSome_iff_exists.mp inside
  simp [slot_store, found]

theorem slot_store_of_ne (other : j ≠ i) : (m.store i v).slot? j = m.slot? j := by
  rw [slot_store, if_neg other]

theorem assign_assign : (m.assign values).assign more =
    m.assign fun i => (more i).or (values i) := by
  have same : ∀ i old, (more i).getD ((values i).getD old) =
      ((more i).or (values i)).getD old := by
    intro i old
    cases more i <;> simp
  cases frames : m.frames with
  | nil => simp only [assign, frames, List.modifyHead_nil]
  | cons f below =>
    simp only [assign, frames, List.modifyHead_cons, Array.mapIdx_mapIdx, Function.comp_def, same]

theorem assign_none : m.assign (fun _ => none) = m := by
  have same : m.frames.modifyHead (fun f =>
      { f with registers := f.registers.mapIdx fun _ old => (none : Option Value).getD old }) =
        m.frames := by
    cases m.frames with
    | nil => rfl
    | cons f below =>
      have plain : f.registers.mapIdx (fun _ old => old) = f.registers := by
        apply Array.ext <;> simp
      simp [plain]
  simp only [assign, same]

end Registers

/-- A machine in which a pattern is being bound, above what `m₀` holds. -/
structure Binding (m₀ : Machine) (h : Handle) (p : Pattern) (m : Machine) : Prop where
  active : Active False m₀ h p m
  wide : ∀ i < p.boundRegisters, (m.slot? i).isSome
  bare : ∀ record ∈ m.handlers.records, record.frame < m₀.frames.length

namespace Binding

variable {m₀ : Machine} {h : Handle} {p : Pattern}

theorem entered {j : Journey} (closed : m.Closed) (ordered : m.Ordered)
    (used : m.heap.get? h = some (.journey j)) (member : p ∈ j.patterns) :
    Binding m h p (m.enter h p) where
  active := .entered closed used member
  wide i inside := by
    have room : i < p.frameSize := lt_of_lt_of_le inside (Nat.le_max_right _ _)
    simp [slot?, enter, Frame.start, room]
  bare := ordered.live

theorem refers (binding : Binding m₀ h p m) (held : v ∈ m₀.held) : m.heap.Refers v :=
  Run.active_refers binding.active held

theorem assign (binding : Binding m₀ h p m)
    (refer : ∀ i v, values i = some v → m.heap.Refers v) : Binding m₀ h p (m.assign values) where
  active := by
    obtain ⟨f, frames, _⟩ := binding.active.frame
    have new : ∀ v ∈ (f.registers.mapIdx fun i old => (values i).getD old).toList,
        v ∈ f.registers.toList ∨ m.heap.Refers v := by
      intro v member
      simp only [Array.toList_mapIdx, List.mem_mapIdx] at member
      obtain ⟨i, inside, same⟩ := member
      cases found : values i with
      | none => simp [found, ← same]
      | some w =>
        right
        apply refer i v
        simpa [found] using same
    have changed : Active False m₀ h p { m with frames := { f with
        registers := f.registers.mapIdx fun i old => (values i).getD old } :: m₀.frames } :=
      binding.active.frameChanged frames rfl rfl new
    simpa only [Machine.assign, frames, List.modifyHead_cons] using changed
  wide i inside := by
    rw [slot_assign, Option.isSome_map]
    exact binding.wide i inside
  bare := binding.bare

theorem store (binding : Binding m₀ h p m) (refers : m.heap.Refers v) :
    Binding m₀ h p (m.store i v) := by
  refine binding.assign fun j w same => ?_
  split at same
  · cases same
    exact refers
  · contradiction

theorem positional {args : List Value} (binding : Binding m₀ h p m)
    (held : ∀ v ∈ args, v ∈ m₀.held) : Binding m₀ h p (m.assign (p.positionalValues args)) := by
  apply binding.assign
  intro i v same
  unfold Pattern.positionalValues at same
  split at same
  · exact binding.refers (held v (List.mem_of_getElem? same))
  · contradiction

theorem keywords {args : List (String × Value)} (binding : Binding m₀ h p m)
    (held : ∀ k ∈ args, k.2 ∈ m₀.held) : Binding m₀ h p (m.assign (p.keywordValues args)) := by
  apply binding.assign
  intro i v same
  unfold Pattern.keywordValues Pattern.received at same
  split at same
  · obtain ⟨k, last, rfl⟩ := Option.map_eq_some_iff.mp same
    exact binding.refers (held k (List.mem_of_mem_filter (List.mem_of_getLast? last)))
  · contradiction

end Binding

end Machine

namespace Run

open Machine (Binding)

variable {α β : Type} {env : Env} {m m' m₀ : Machine} {h : Handle} {p : Pattern} {i : Nat}
  {v : Value}

section Equations

theorem bind_eq_ok {c : Run α} {k : α → Run β} {b : β} : (c >>= k) env m = .ok b m' ↔
    ∃ a m₁, c env m = .ok a m₁ ∧ k a env m₁ = .ok b m' := by
  cases same : c env m with
  | ok a m₁ =>
    rw [bind_ok same]
    simp
  | error unwind m₁ =>
    rw [bind_error same]
    simp

theorem pure_eq_ok {a b : α} : (pure a : Run α) env m = .ok b m' ↔ a = b ∧ m = m' := by
  change EStateM.Result.ok a m = .ok b m' ↔ _
  simp

theorem and_eq_ok {c k : Run Bool} : (do if ← c then k else return false) env m = .ok true m' ↔
    ∃ m₁, c env m = .ok true m₁ ∧ k env m₁ = .ok true m' := by
  rw [bind_eq_ok]
  constructor
  · rintro ⟨_ | _, m₁, first, second⟩
    · cases second
    · exact ⟨m₁, first, second⟩
  · rintro ⟨m₁, first, second⟩
    exact ⟨true, m₁, first, second⟩

theorem unless_eq_ok {c k : Run Bool} :
    (do if !(← c) then return false else k) env m = .ok true m' ↔
      ∃ m₁, c env m = .ok true m₁ ∧ k env m₁ = .ok true m' := by
  rw [← and_eq_ok]
  have same : (do if !(← c) then return false else k) = (do if ← c then k else return false) := by
    refine congrArg (c >>= ·) (funext fun test => ?_)
    cases test <;> rfl
  rw [same]

theorem setRegister_eq (inside : (m.slot? i).isSome) :
    setRegister i v env m = .ok () (m.store i v) := by
  cases frames : m.frames with
  | nil => simp [Machine.slot?, frames] at inside
  | cons f below =>
    have room : i < f.registers.size := by simpa [Machine.slot?, frames] using inside
    have same : f.registers.setIfInBounds i v =
        f.registers.mapIdx fun j old => (if j = i then some v else none).getD old := by
      apply Array.ext
      · simp
      · intro j _ _
        by_cases here : j = i
        · simp [here]
        · grind
    rw [setRegister_ok frames room, same]
    simp only [Machine.store, Machine.assign, frames, List.modifyHead_cons]

theorem register_eq_ok : register i env m = .ok v m' ↔ m.slot? i = some v ∧ m = m' := by
  cases frames : m.frames with
  | nil => simp [register, onFrame, Machine.slot?, frames]
  | cons f below =>
    cases found : f.registers[i]? with
    | none =>
      have here : register i env m = .error (.fatal (.malformed (.registerRange i))) m :=
        onFrame_error frames (by simp only [Frame.register, found]; rfl)
      simp [here, Machine.slot_cons frames, found]
    | some w =>
      have here : register i env m = .ok w { m with frames := f :: below } :=
        onFrame_ok frames (by simp only [Frame.register, found]; rfl)
      rw [← frames] at here
      simp [here, Machine.slot_cons frames, found]

end Equations

section Steps

/-- A sub-program has run. -/
theorem evaluated {start : Nat} (calls : env.Calls False) (modest : Dispatch.Modest env p start)
    (binding : Binding m₀ h p m) (done : evaluate start env m = .ok v m') :
    Binding m₀ h p m' ∧ m'.heap.Refers v ∧ ∀ i < p.boundRegisters, m'.slot? i = m.slot? i := by
  obtain ⟨f, frames, _, pattern⟩ := binding.active.frame
  obtain ⟨bare, same⟩ := modest m f m₀.frames v m' frames pattern binding.bare done
  have outcome := evaluates calls calls start binding.active False.elim
  rw [done] at outcome
  refine ⟨⟨outcome.1, fun i inside => ?_, bare⟩, outcome.2.1, same⟩
  rw [same i inside]
  exact binding.wide i inside

/-- A computation has run that is not code of the frame. -/
theorem passed {c : Run α} {a : α} {Q : α → Machine → Prop} (binding : Binding m₀ h p m)
    (meets : Meets (.within False m) env c m Q) (orderly : Orderly 0 env c m)
    (done : c env m = .ok a m') : Binding m₀ h p m' ∧ m'.frames = m.frames ∧ Q a m' := by
  have outcome := meets (.refl binding.active.closed) False.elim
  rw [done] at outcome
  obtain ⟨within, post, _⟩ := outcome
  refine ⟨⟨binding.active.within within, fun i inside => ?_, fun record member => ?_⟩,
    within.frames, post⟩
  · rw [Machine.slot_of_frames within.frames]
    exact binding.wide i inside
  · exact binding.bare record ((orderly.moves done).records.suffix.subset member)

/-- An object was allocated whose parts refer. -/
theorem allocated {o : Object} {k : Handle} (binding : Binding m₀ h p m)
    (common : o.genus ≠ .form ∧ o.genus ≠ .journey ∧ o.genus ≠ .imitation)
    (refer : ∀ v ∈ o.links, m.heap.Refers v) (done : allocate o env m = .ok k m') :
    Binding m₀ h p m' ∧ m'.frames = m.frames ∧ m.Placed o k m' := by
  exact passed binding (meets_allocate common fun _ => refer) (.allocate o) done

end Steps

end Run

namespace Dispatch

open Machine (Binding)
open Run

variable {env : Env} {given : Nat → Option Value} {registerOf : Nat → Nat} {i : Nat}
  {parameters : List Parameter} {m m' m₀ : Machine} {vs : List Value}
  {runs : List (Machine × Machine)} {h : Handle} {p : Pattern}

section Assumptions

theorem held_positional {args : Arguments} (held : ∀ v ∈ args.values, v ∈ m₀.held) :
    ∀ v ∈ args.positional, v ∈ m₀.held :=
  fun v member => held v (List.mem_append_left _ member)

theorem held_keywords {args : Arguments} (held : ∀ v ∈ args.values, v ∈ m₀.held) :
    ∀ k ∈ args.keywords, k.2 ∈ m₀.held :=
  fun k member => held k.2 (List.mem_append_right _ (List.mem_map.mpr ⟨k, member, rfl⟩))

variable (modest : ∀ start ∈ p.subPrograms, Modest env p start)
include modest

theorem modest_fallback (sub : ∀ {q}, q ∈ parameters → q ∈ p.positional ∨ q ∈ p.keywords) :
    ∀ q ∈ parameters, ∀ start, q.fallback = some start → Modest env p start := by
  intro q member start code
  apply modest start
  simp only [Pattern.subPrograms, List.mem_append, List.mem_filterMap]
  exact .inl (.inl ⟨q, sub member, code⟩)

theorem modest_guard (sub : ∀ {q}, q ∈ parameters → q ∈ p.positional ∨ q ∈ p.keywords) :
    ∀ q ∈ parameters, ∀ start, q.guard = some start → Modest env p start := by
  intro q member start code
  apply modest start
  simp only [Pattern.subPrograms, List.mem_append, List.mem_filterMap]
  exact .inl (.inr ⟨q, sub member, code⟩)

theorem modest_condition : ∀ start, p.condition = some start → Modest env p start := by
  intro start code
  apply modest start
  simp [Pattern.subPrograms, code]

end Assumptions

/-- What every default keeps together with the storing of its value is kept by all of them. -/
theorem Supplies.keeps {P : Machine → Prop}
    (supplies : Supplies env given registerOf i parameters m vs runs m')
    (each : ∀ k q start before v after, i ≤ k → k < i + parameters.length → q ∈ parameters →
      given k = none → q.fallback = some start → evaluate start env before = .ok v after →
      (before, after) ∈ runs → P before → P (after.store (registerOf k) v))
    (holds : P m) : P m' := by
  induction supplies with
  | done => exact holds
  | given _ _ ih =>
    apply ih _ holds
    intro k q start before v after least most member
    exact each k q start before v after (by omega) (by simp only [List.length_cons]; omega)
      (List.mem_cons_of_mem _ member)
  | @fallback i start q rest v vs runs m m₁ m' missing code ran _ ih =>
    apply ih
    · intro k q start before v after least most member none code ran run
      exact each k q start before v after (by omega) (by simp only [List.length_cons]; omega)
        (List.mem_cons_of_mem _ member) none code ran (List.mem_cons_of_mem _ run)
    · exact each i q start m v m₁ le_rfl (by simp) (List.mem_cons_self ..) missing code ran
        (List.mem_cons_self ..) holds

theorem Supplies.binding (supplies : Supplies env given registerOf i parameters m vs runs m')
    (calls : env.Calls False)
    (modest : ∀ q ∈ parameters, ∀ start, q.fallback = some start → Modest env p start)
    (binding : Binding m₀ h p m) : Binding m₀ h p m' := by
  apply supplies.keeps _ binding
  intro k q start before v after _ _ member _ code ran _ bound
  obtain ⟨still, refers, _⟩ := evaluated calls (modest q member start code) bound ran
  exact still.store refers

/-- A parameter that is not given has a default. -/
theorem Supplies.fallbacks (supplies : Supplies env given registerOf i parameters m vs runs m')
    {k : Nat} {q : Parameter} (there : parameters[k]? = some q) (missing : given (i + k) = none) :
    q.fallback ≠ none := by
  induction supplies generalizing k with
  | done => simp at there
  | given found _ ih =>
    cases k with
    | zero => simp [found] at missing
    | succ k =>
      rw [← Nat.add_assoc, Nat.add_right_comm] at missing
      exact ih (by simpa using there) missing
  | fallback _ code _ _ ih =>
    cases k with
    | zero =>
      cases Option.some.inj there
      simp [code]
    | succ k =>
      rw [← Nat.add_assoc, Nat.add_right_comm] at missing
      exact ih (by simpa using there) missing

/-- The book of surplus arguments is made, and nothing else that is bound changes. -/
theorem Splats.collected {surplus : List Value} {handle : Option Handle}
    (splats : Splats env p surplus m handle m') (held : ∀ v ∈ surplus, v ∈ m₀.held)
    (binding : Binding m₀ h p m) : Binding m₀ h p m' ∧
      (∀ r, r ≠ p.splatRegister → m'.slot? r = m.slot? r) ∧
      (p.splat = true → ∃ k, handle = some k ∧ m'.slot? p.splatRegister = some (.book k) ∧
        m'.heap.get? k = some (.book surplus.toArray)) := by
  cases splats with
  | without none => exact ⟨binding, fun _ _ => rfl, by simp [none]⟩
  | book has made fresh =>
    rename_i m₁ k
    have refer : ∀ v ∈ (Object.book surplus.toArray).links, m.heap.Refers v := by
      intro v member
      exact binding.refers (held v (by simpa [Object.links] using member))
    obtain ⟨bound, frames, _⟩ := allocated binding (by simp [Object.genus]) refer made
    refine ⟨bound.store ((Heap.refers_book).mpr fresh.holds), fun r other => ?_, fun _ => ?_⟩
    · rw [Machine.slot_store_of_ne other, Machine.slot_of_frames frames]
    · have wide := bound.wide _ (Pattern.splatRegister_lt has)
      exact ⟨k, rfl, Machine.slot_stored wide, fresh.object⟩

end Dispatch

end JourneyMachine
