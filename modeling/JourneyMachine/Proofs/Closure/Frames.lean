import JourneyMachine.Proofs.Closure.Scrolls

namespace JourneyMachine

open Machine (Within Active)

namespace Machine

variable {strict : Prop} {m₀ m m' : Machine} {h : Handle} {p : Pattern}

def top (m : Machine) : List Value :=
  match m.frames with
  | [] => []
  | f :: _ => f.registers.toList

theorem top_sub_held {v : Value} (member : v ∈ m.top) : v ∈ m.held := by
  unfold top at member
  split at member
  · contradiction
  · rename_i f rest same
    simp only [held, same, List.flatMap_cons, List.mem_append]
    exact .inr (.inl (List.mem_cons_of_mem _ member))

theorem mem_top {f : Frame} {rest : List Frame} {i : Nat} {v : Value}
    (frames : m.frames = f :: rest) (found : f.registers[i]? = some v) : v ∈ m.top := by
  unfold top
  rw [frames]
  exact Array.mem_toList_iff.mpr (Array.mem_of_getElem? found)

/-- The frame on top is changed in its position and its registers. -/
theorem Active.frameChanged (active : Active strict m₀ h p m) {f after : Frame} {rest : List Frame}
    (frames : m.frames = f :: rest) (journey : after.journey = f.journey)
    (pattern : after.pattern = f.pattern)
    (registers : ∀ v ∈ after.registers.toList, v ∈ f.registers.toList ∨ m.heap.Refers v) :
    Active strict m₀ h p { m with frames := after :: rest } where
  closed := by
    refine active.closed.of_links rfl (fun v member => ?_) fun g member => ?_
    · have new := registers v
      simp only [Machine.links, frames, Frame.links, journey, List.flatMap_cons, List.mem_append,
        List.mem_cons] at member ⊢
      tauto
    · rw [frames]
      rcases List.mem_cons.mp member with rfl | below
      · rw [journey, pattern]
        exact .inr (active.closed.patterns f (by simp [frames]))
      · exact .inl (List.mem_cons_of_mem _ below)
  fixed := active.fixed
  frame := by
    obtain ⟨g, same, at_, of⟩ := active.frame
    rw [frames] at same
    cases same
    exact ⟨after, rfl, journey.trans at_, pattern.trans of⟩
  pinned := active.pinned
  evolves := active.evolves
  appends := active.appends.trans (.same rfl rfl) fun _ => active.held_sub

def enter (m : Machine) (h : Handle) (p : Pattern) : Machine :=
  { m with frames := .start h p :: m.frames }

theorem Active.entered (closed : m.Closed) {j : Journey}
    (used : m.heap.get? h = some (.journey j)) (member : p ∈ j.patterns) :
    Active strict m h p (m.enter h p) where
  closed := by
    refine closed.of_links rfl (fun v there => ?_) fun f there => ?_
    · have journey : v = .journey h → m.heap.Refers v := by
        rintro rfl
        exact (Heap.refers_journey).mpr ⟨_, used, rfl⟩
      have registers : v ∈ List.replicate p.frameSize Value.ni → m.heap.Refers v := by
        intro fresh
        rw [List.eq_of_mem_replicate fresh]
        exact Heap.refers_ni
      simp only [Machine.links, enter, Frame.links, Frame.start, List.flatMap_cons,
        List.mem_append, List.mem_cons, Array.toList_replicate] at there ⊢
      tauto
    · rcases List.mem_cons.mp there with rfl | below
      · exact .inr ⟨j, used, member⟩
      · exact .inl below
  fixed := rfl
  frame := ⟨_, rfl, rfl, rfl⟩
  pinned := rfl
  evolves := .refl
  appends := .same rfl rfl

theorem Active.left_frames (active : Active strict m h p m') :
    (m'.unwindTo m.frames.length).frames = m.frames := by
  obtain ⟨f, frames, _⟩ := active.frame
  simp only [unwindTo, frames]
  exact oldest_append [f] m.frames

theorem Active.left (active : Active strict m h p m') :
    Within strict m (m'.unwindTo m.frames.length) where
  closed := by
    obtain ⟨f, frames, _⟩ := active.frame
    have left := active.left_frames
    refine active.closed.of_links rfl (fun v member => .inl ?_) fun g member => .inl ?_
    · simp only [Machine.links, left] at member
      simp only [Machine.links, frames, List.flatMap_cons, List.mem_append] at member ⊢
      simp only [unwindTo, HandlerStack.discard] at member
      tauto
    · rw [left] at member
      rw [frames]
      exact List.mem_cons_of_mem _ member
  fixed := active.fixed
  frames := active.left_frames
  pinned := active.pinned
  evolves := active.evolves
  appends := active.appends.trans (.same rfl rfl) fun _ => active.held_sub

end Machine

namespace Run

variable {strict : Prop} {R : Region strict} {env : Env} {m m₀ : Machine} {h : Handle} {p : Pattern}
  {α : Type}

section Entering

def leaving (depth : Nat) :
    EStateM.Result Unwind Machine α → EStateM.Result Unwind Machine α
  | .ok a m => .ok a (m.unwindTo depth)
  | .error .halted m => .error .halted m
  | .error unwind m => .error unwind (m.unwindTo depth)

theorem withFrame_eq (h : Handle) (p : Pattern) (c : Run α) (env : Env) (m : Machine) :
    withFrame h p c env m = leaving m.frames.length (c env (m.enter h p)) := by
  simp only [withFrame, Machine.enter]
  generalize c env _ = result
  rcases result with _ | ⟨_ | _ | _, _⟩ <;> rfl

theorem rebudget_leaving (depth n : Nat) (result : EStateM.Result Unwind Machine α) :
    rebudget n (leaving depth result) = leaving depth (rebudget n result) := by
  rcases result with _ | ⟨_ | _ | _, _⟩ <;> rfl

theorem Steady.withFrame {shapes : Prop} {c : Run α} {m' after : Machine}
    (steady : Steady shapes env c (m.enter h p) m') (heap : after.heap = m'.heap)
    (builtins : after.builtins = m'.builtins) (budget : after.budget = m'.budget) :
    Steady shapes env (withFrame h p c) m after := by
  refine steady.around rfl budget (.same rfl rfl) (.same heap builtins) (fun n halted same => ?_)
    fun n n' reached => ?_
  · rw [withFrame_eq]
    exact congrArg (leaving m.frames.length) same
  · rw [withFrame_eq, withFrame_eq, rebudget_leaving, ← reached]
    rfl

/-- A frame of a pattern of the journey is entered and left. -/
theorem Meets.withFrame {c : Run α} {Q : α → Heap → Prop} {j : Journey}
    (used : m.heap.get? h = some (.journey j)) (member : p ∈ j.patterns)
    (body : Meets (.active strict m h p) env c (m.enter h p) fun a m' => Q a m'.heap) :
    Meets R env (withFrame h p c) m fun a m' => Q a m'.heap := by
  refine .intro fun region => .lift fun _ calm => ?_
  have outcome := body (.entered (R.closed region) used member) fun assumed n less m' halted =>
    calm assumed n less m' (by rw [withFrame_eq]; exact congrArg (leaving m.frames.length) halted)
  rw [withFrame_eq]
  cases same : c env (m.enter h p) with
  | ok a m' =>
    rw [same] at outcome
    exact ⟨outcome.1.left, outcome.2.1, outcome.2.2.withFrame rfl rfl rfl⟩
  | error unwind m' =>
    rw [same] at outcome
    cases unwind with
    | thrown => exact ⟨outcome.1.left, outcome.2.withFrame rfl rfl rfl⟩
    | fatal fault => exact ⟨outcome.1.left, outcome.2.1, outcome.2.2.withFrame rfl rfl rfl⟩
    | halted => exact ⟨outcome.1, outcome.2.withFrame rfl rfl rfl⟩

end Entering

section Registers

theorem meets_onFrame {f : Frame → Except Fault (α × Frame)} {Q : α → Machine → Prop}
    (harmless : ∀ frame slot, f frame ≠ .error (.dangling slot))
    (keeps : ∀ frame rest a after, m.frames = frame :: rest → f frame = .ok (a, after) →
      after.journey = frame.journey ∧ after.pattern = frame.pattern ∧
      (∀ v ∈ after.registers.toList, v ∈ frame.registers.toList ∨ m.heap.Refers v) ∧
      Q a { m with frames := after :: rest }) :
    Meets (.active strict m₀ h p) env (onFrame f) m Q := by
  refine .intro fun active => ?_
  obtain ⟨frame, frames, _⟩ := active.frame
  cases same : f frame with
  | ok result =>
    obtain ⟨a, after⟩ := result
    obtain ⟨journey, pattern, registers, post⟩ := keeps frame _ a after frames same
    have changed : ∀ n, onFrame f env (m.withBudget n) =
        .ok a ({ m with frames := after :: m₀.frames }.withBudget n) := by
      intro n
      simp only [onFrame, Machine.withBudget, frames, same]
    exact .instant (changed m.budget) changed
      (fun _ => ⟨active.frameChanged frames journey pattern registers, post⟩)
      fun _ => .same rfl rfl
  | error fault =>
    refine .fault fault (fun n => ?_) fun _ slot equal => harmless frame slot (by rw [same, equal])
    simp only [onFrame, Machine.withBudget, frames, same]

/-- Looks at the frame on top. -/
theorem meets_readFrame {g : Frame → Except Fault α}
    (harmless : ∀ f slot, g f ≠ .error (.dangling slot)) :
    Meets (.active strict m₀ h p) env (onFrame fun f => return (← g f, f)) m fun a m' =>
      m' = m ∧ ∃ f rest, m.frames = f :: rest ∧ g f = .ok a := by
  refine meets_onFrame (fun frame slot => ?_) fun frame rest a after frames same => ?_
  · cases result : g frame with
    | ok a => exact fun equal => by cases equal
    | error fault =>
      intro equal
      cases equal
      exact harmless frame slot result
  · cases result : g frame with
    | ok b =>
      rw [result] at same
      cases same
      exact ⟨rfl, rfl, fun _ there => .inl there, by rw [← frames], frame, rest, frames, result⟩
    | error fault =>
      rw [result] at same
      cases same

/-- Changes the position or the registers of the frame on top. -/
theorem meets_moveFrame {g : Frame → Except Fault Frame} {Q : Machine → Prop}
    (harmless : ∀ f slot, g f ≠ .error (.dangling slot))
    (keeps : ∀ f rest after, m.frames = f :: rest → g f = .ok after →
      after.journey = f.journey ∧ after.pattern = f.pattern ∧
      (∀ v ∈ after.registers.toList, v ∈ f.registers.toList ∨ m.heap.Refers v) ∧
      Q { m with frames := after :: rest }) :
    Meets (.active strict m₀ h p) env (onFrame fun f => return ((), ← g f)) m fun _ m' => Q m' := by
  refine meets_onFrame (fun frame slot => ?_) fun frame rest a after frames same => ?_
  · cases result : g frame with
    | ok a => exact fun equal => by cases equal
    | error fault =>
      intro equal
      cases equal
      exact harmless frame slot result
  · cases result : g frame with
    | ok b =>
      rw [result] at same
      cases same
      exact keeps frame rest after frames result
    | error fault =>
      rw [result] at same
      cases same

theorem meets_register (i : Nat) :
    Meets (.active strict m₀ h p) env (register i) m fun v m' =>
      m' = m ∧ ∃ f rest, m.frames = f :: rest ∧ f.registers[i]? = some v := by
  refine (meets_readFrame (g := (·.register i)) fun f slot => ?_).weaken ?_
  · unfold Frame.register
    split <;> simp
  · rintro v m' _ ⟨rfl, f, rest, frames, same⟩
    refine ⟨rfl, f, rest, frames, ?_⟩
    unfold Frame.register at same
    split at same
    · rename_i found
      rw [found, Except.ok.inj same]
    · contradiction

theorem meets_setRegister (i : Nat) {v : Value} (refers : m.heap.Refers v) :
    Meets (.active strict m₀ h p) env (setRegister i v) m fun _ m' =>
      m'.heap = m.heap ∧ v ∈ m'.top := by
  refine meets_moveFrame (g := (·.setRegister i v)) (fun f slot => ?_)
    fun f rest after frames same => ?_
  · unfold Frame.setRegister
    split <;> simp
  · unfold Frame.setRegister at same
    split at same
    · rename_i inside
      cases same
      refine ⟨rfl, rfl, fun w there => ?_, rfl, ?_⟩
      · rw [Array.toList_setIfInBounds] at there
        rcases List.mem_or_eq_of_mem_set there with before | rfl
        · exact .inl before
        · exact .inr refers
      · simp only [Machine.top, Array.toList_setIfInBounds]
        exact List.mem_set (by simpa using inside) v
    · contradiction

theorem meets_jump (target : Nat) :
    Meets (.active strict m₀ h p) env (jump target) m fun _ _ => True := by
  refine meets_moveFrame (g := (·.jump target)) (fun f slot => ?_)
    fun f rest after frames same => ?_
  · unfold Frame.jump
    split <;> simp
  · unfold Frame.jump at same
    split at same
    · contradiction
    · cases same
      exact ⟨rfl, rfl, fun _ there => .inl there, trivial⟩

end Registers

end Run

end JourneyMachine
