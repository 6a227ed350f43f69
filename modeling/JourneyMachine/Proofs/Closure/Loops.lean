import JourneyMachine.Proofs.Closure.Steps

/-! Running a frame. A round fetches an instruction and runs it; a throw that this frame handles
ends the round at the handler. Every round takes an instruction off the budget, so more rounds than
the budget has instructions make no difference, and the contract of the loop is an induction on the
budget. That of calls is an induction on how many may be inside each other. -/

namespace JourneyMachine

open Machine (Within Active)

namespace Run

variable {strict : Prop} {R : Region strict} {env : Env} {m m₀ : Machine} {h : Handle} {p : Pattern}
  {α : Type}

section Rounds

def rescue (c handler : Run α) : Run α := fun env m =>
  match c env m with
  | .error .thrown m => handler env m
  | result => result

/-- One instruction; a throw that the frame handles goes on at the handler. -/
def round : Run Flow := do
  fetch
  rescue step do
    resume
    return .next

theorem rescue_thrown {c handler : Run α} {m' : Machine} (same : c env m = .error .thrown m') :
    rescue c handler env m = handler env m' := by
  simp only [rescue, same]

theorem rescue_other {c handler : Run α} {result : EStateM.Result Unwind Machine α}
    (same : c env m = result) (other : ∀ m', result ≠ .error .thrown m') :
    rescue c handler env m = result := by
  subst same
  unfold rescue
  split
  · rename_i m' thrown
    exact absurd thrown (other m')
  · rfl

theorem Steady.rescued {shapes : Prop} {c handler : Run α} {m' after : Machine}
    (same : c env m = .error .thrown m') (first : Steady shapes env c m m')
    (second : Steady shapes env handler m' after) :
    Steady shapes env (rescue c handler) m after := by
  refine first.goesOn second (fun n halted stopped => ?_) fun n n' reached => ?_
  · exact rescue_other stopped fun _ equal => by cases equal
  · rw [same] at reached
    exact rescue_thrown reached

theorem rebudget_thrown {n : Nat} {result : EStateM.Result Unwind Machine α} {m' : Machine}
    (same : rebudget n result = .error .thrown m') : ∃ m₁, result = .error .thrown m₁ := by
  rcases result with _ | ⟨unwind, m₁⟩
  · contradiction
  · cases same
    exact ⟨m₁, rfl⟩

/-- Any other end is left as it is. -/
theorem Steady.spared {shapes : Prop} {c handler : Run α} {m' : Machine}
    (steady : Steady shapes env c m m') (other : ∀ m', c env m ≠ .error .thrown m') :
    Steady shapes env (rescue c handler) m m' := by
  refine steady.around rfl rfl .refl .refl (fun n halted stopped => ?_) fun n n' reached => ?_
  · exact rescue_other stopped fun _ equal => by cases equal
  · have here : rescue c handler env m = c env m := rescue_other rfl other
    rw [here]
    refine rescue_other reached fun m₁ equal => ?_
    obtain ⟨thrown, same⟩ := rebudget_thrown equal
    exact other thrown same

theorem Meets.rescue {c handler : Run α} {Q : α → Machine → Prop} (first : Meets R env c m Q)
    (next : ∀ m', R.holds m' → Meets R env handler m' Q) :
    Meets R env (rescue c handler) m Q := by
  intro holds calm
  have calmFirst : strict → Calm env c m := fun assumed n less m' halted =>
    calm assumed n less m' (rescue_other halted fun _ equal => by cases equal)
  have outcome := first holds calmFirst
  cases same : c env m with
  | ok a m' =>
    rw [same] at outcome
    rw [rescue_other same fun _ equal => by cases equal]
    exact ⟨outcome.1, outcome.2.1, outcome.2.2.spared (by simp [same])⟩
  | error unwind m' =>
    rw [same] at outcome
    cases unwind with
    | thrown =>
      rw [rescue_thrown same]
      have rest := next m' outcome.1 outcome.1 fun assumed n less after halted => ?_
      · cases then_ : handler env m' with
        | ok a after =>
          rw [then_] at rest
          exact ⟨rest.1, rest.2.1, outcome.2.rescued same rest.2.2⟩
        | error unwind after =>
          rw [then_] at rest
          cases unwind with
          | thrown => exact ⟨rest.1, outcome.2.rescued same rest.2⟩
          | fatal fault => exact ⟨rest.1, rest.2.1, outcome.2.rescued same rest.2.2⟩
          | halted => exact ⟨rest.1, outcome.2.rescued same rest.2⟩
      · obtain ⟨spent, budget, _, again, _⟩ := outcome.2
        -- A handler that halts for want of budget would halt the whole, with what the first part
        -- spends added.
        have before := again n (Nat.le_of_lt less)
        rw [same] at before
        exact calm assumed (spent + n) (by omega) after ((rescue_thrown before).trans halted)
    | fatal fault =>
      rw [rescue_other same fun _ equal => by cases equal]
      exact ⟨outcome.1, outcome.2.1, outcome.2.2.spared (by simp [same])⟩
    | halted =>
      rw [rescue_other same fun _ equal => by cases equal]
      exact ⟨outcome.1, outcome.2.spared (by simp [same])⟩

/-- A computation leaves no more budget than it found. -/
theorem Meets.budget {c : Run α} {Q : α → Machine → Prop} (meets : Meets R env c m Q) :
    Meets R env c m fun a m' => Q a m' ∧ m'.budget ≤ m.budget := by
  intro holds calm
  have outcome := meets holds calm
  cases same : c env m with
  | ok a m' =>
    rw [same] at outcome
    obtain ⟨still, post, spent, budget, rest⟩ := outcome
    exact ⟨still, ⟨post, by omega⟩, spent, budget, rest⟩
  | error unwind m' =>
    rw [same] at outcome
    cases unwind <;> exact outcome

/-- A fetch takes an instruction off the budget, and was looked at on a smaller one. -/
theorem meets_fetch : Meets R env fetch m fun _ m' =>
    m'.budget < m.budget ∧ (strict → ¬ m'.DropsGuard) := by
  intro holds calm
  cases budget : m.budget with
  | zero =>
    have here : fetch env m = .error .halted m := by simp only [fetch, budget]
    rw [here]
    refine ⟨R.closed holds, 0, by omega, fun _ => .refl, fun n less => ?_, by simp⟩
    obtain rfl : n = 0 := by omega
    rw [here]
    rfl
  | succ left =>
    have here : fetch env m = .ok () (m.withBudget left) := by
      simp only [fetch, budget, Machine.withBudget]
    have still : R.holds (m.withBudget left) :=
      R.stable holds (.same (R.closed holds) rfl rfl rfl rfl rfl rfl)
    rw [here]
    refine ⟨still, ⟨by simp, fun assumed => ?_⟩, 1, by simp [budget, Nat.add_comm],
      fun _ => .same rfl rfl, fun n _ => ?_, fun n less => ?_⟩
    · exact calm assumed 0 (by omega) (m.withBudget 0) rfl
    · rw [here, Nat.add_comm]
      rfl
    · obtain rfl : n = 0 := by omega
      exact ⟨m.withBudget 0, rfl, fun _ => .same rfl rfl⟩

theorem resume_missed (missed : m.handlers.catchIn? (m.frameDepth - 1) = none) :
    resume env m = .error .thrown m := by
  refine (bind_ok (a := m) rfl).trans ?_
  simp only [missed]
  rfl

theorem resume_handled {handler : Handler} {handlers : HandlerStack}
    (caught : m.handlers.catchIn? (m.frameDepth - 1) = some (handler, handlers)) :
    resume env m = (do
      modify fun m => { m with handlers := handlers.takeException.2 }
      setRegister handler.register handlers.exception
      jump handler.resume : Run Unit) env m := by
  refine (bind_ok (a := m) rfl).trans ?_
  simp only [caught]
  rfl

theorem meets_resume : Meets (.active strict m₀ h p) env resume m fun _ _ => True := by
  cases caught : m.handlers.catchIn? (m.frameDepth - 1) with
  | none =>
    have same : ∀ n, resume env (m.withBudget n) = .error .thrown (m.withBudget n) :=
      fun n => resume_missed (m := m.withBudget n) caught
    exact .throws (same m.budget) same id fun _ => .refl
  | some found =>
    obtain ⟨handler, handlers⟩ := found
    -- The handler goes; the exception is still in flight until it is stored.
    have kept : handlers.exception = m.handlers.exception := by
      unfold HandlerStack.catchIn? at caught
      split at caught
      · contradiction
      · split at caught
        · cases caught
          rfl
        · contradiction
    refine Meets.congr (fun n => resume_handled (m := m.withBudget n) caught) ?_
    refine .intro fun active => ?_
    have refers : m.heap.Refers handlers.exception := by
      rw [kept]
      exact active.closed.links _ (by simp [Machine.links])
    refine Meets.bind (P := fun _ m' => m'.heap = m.heap) (.changes (fun _ => rfl) (fun _ =>
      ⟨?_, rfl⟩) fun _ => .same rfl rfl) fun _ m' _ same => ?_
    · have popped := active.handlers kept
      exact popped.within (.exception popped.closed Heap.refers_ni)
    · exact (meets_setRegister handler.register (by rwa [same])).bind fun _ _ _ _ =>
        meets_jump handler.resume

end Rounds

section Spinning

def proceed (next : Run Value) : Flow → Run Value
  | .next => next
  | .done v => pure v

theorem loop_succ (rounds : Nat) :
    loop (rounds + 1) env m = (round >>= proceed (loop rounds)) env m := by
  cases fetched : fetch env m with
  | error unwind m₁ =>
    -- Fetching only halts, so that there is nothing to resume.
    have never : unwind ≠ .thrown := by
      rintro rfl
      unfold fetch at fetched
      split at fetched <;> cases fetched
    have stopped : round env m = .error unwind m₁ := bind_error fetched
    have same : (fetch >>= fun _ => step) env m = .error unwind m₁ := bind_error fetched
    rw [bind_error stopped]
    cases unwind with
    | thrown => contradiction
    | fatal fault => simp only [loop, same]
    | halted => simp only [loop, same]
  | ok _ m₁ =>
    have same : (fetch >>= fun _ => step) env m = step env m₁ := bind_ok fetched
    have begun : round env m = rescue step (do resume; return .next) env m₁ := bind_ok fetched
    cases stepped : step env m₁ with
    | ok flow m₂ =>
      have went := begun.trans (rescue_other stepped fun _ equal => by cases equal)
      rw [bind_ok went]
      cases flow <;> simp only [loop, same, stepped] <;> rfl
    | error unwind m₂ =>
      cases unwind with
      | thrown =>
        have handled := begun.trans (rescue_thrown stepped)
        cases resumed : resume env m₂ with
        | ok _ m₃ =>
          rw [bind_ok (handled.trans (bind_ok resumed))]
          simp only [loop, same, stepped, resumed]
          rfl
        | error unwind m₃ =>
          rw [bind_error (handled.trans (bind_error resumed))]
          simp only [loop, same, stepped, resumed]
      | fatal fault =>
        rw [bind_error (begun.trans (rescue_other stepped fun _ equal => by cases equal))]
        simp only [loop, same, stepped]
      | halted =>
        rw [bind_error (begun.trans (rescue_other stepped fun _ equal => by cases equal))]
        simp only [loop, same, stepped]

def spin : Run Value := fun env m => loop (m.budget + 1) env m

theorem meets_round (calls : env.Calls strict) : Meets (.active strict m₀ h p) env round m
    fun flow m' => Returns flow m' ∧ m'.budget < m.budget := by
  refine (meets_fetch).bind fun _ m₁ _ fetched => ?_
  refine ((meets_step calls fetched.2).rescue fun m₂ _ => (meets_resume).bind fun _ _ _ _ =>
    meets_next).budget.weaken fun flow m₂ _ post => ⟨post.1, by omega⟩

/-- More rounds than the budget has instructions make no difference. -/
theorem loop_rounds (calls : env.Calls False) {rounds : Nat} (active : Active False m₀ h p m)
    (enough : m.budget < rounds) : loop rounds env m = spin env m := by
  induction budget : m.budget using Nat.strong_induction_on generalizing m rounds with
  | _ b ih =>
    subst budget
    obtain ⟨rounds, rfl⟩ : ∃ r, rounds = r + 1 := ⟨rounds - 1, by omega⟩
    have outcome := meets_round (m := m) calls active False.elim
    rw [spin, loop_succ, loop_succ]
    cases same : round env m with
    | ok flow m' =>
      rw [same] at outcome
      rw [bind_ok same, bind_ok same]
      cases flow with
      | done v => rfl
      | next =>
        have less := outcome.2.1.2
        have first : loop rounds env m' = spin env m' :=
          ih m'.budget less outcome.1 (by omega) rfl
        have second : loop m.budget env m' = spin env m' := ih m'.budget less outcome.1 less rfl
        exact first.trans second.symm
    | error unwind m' => rw [bind_error same, bind_error same]

/-- A round, and then the rest. -/
theorem spin_eq (calls : env.Calls False) (active : Active False m₀ h p m) :
    spin env m = (round >>= proceed spin) env m := by
  have outcome := meets_round (m := m) calls active False.elim
  rw [spin, loop_succ]
  cases same : round env m with
  | ok flow m' =>
    rw [same] at outcome
    rw [bind_ok same, bind_ok same]
    cases flow with
    | done v => rfl
    | next => exact loop_rounds calls outcome.1 outcome.2.1.2
  | error unwind m' => rw [bind_error same, bind_error same]

theorem meets_spin (relaxed : env.Calls False) (calls : env.Calls strict) :
    Meets (.active strict m₀ h p) env spin m fun v m' => m'.heap.Refers v := by
  induction budget : m.budget using Nat.strong_induction_on generalizing m with
  | _ b ih =>
    subst budget
    refine .intro fun active => ?_
    refine Meets.congr (d := round >>= proceed spin) (fun n => ?_) ?_
    · have again : Active strict m₀ h p (m.withBudget n) :=
        active.within (.same active.closed rfl rfl rfl rfl rfl rfl)
      exact spin_eq relaxed again.relaxed
    · refine (meets_round calls).bind fun flow m' _ post => ?_
      cases flow with
      | next => exact ih m'.budget post.2 rfl
      | done v => exact .pure fun _ => post.1 v rfl

theorem evaluates (relaxed : env.Calls False) (calls : env.Calls strict) :
    Evaluates strict env evaluate := fun start =>
  ((meets_jump start).bind fun _ _ _ _ => meets_spin relaxed calls).congr fun _ => rfl

end Spinning

end Run

/-- Calls of every depth keep what the machine holds. -/
theorem Machine.callAt_calls (strict : Prop) (depth inside : Nat) :
    Env.Calls strict { call := callAt depth, depth := inside } := by
  induction depth generalizing strict inside with
  | zero =>
    exact ⟨fun _ _ => .fault .tooDeep (fun _ => rfl) fun _ _ => by simp,
      fun _ _ => ⟨_, fun _ => rfl⟩⟩
  | succ depth ih =>
    have inner := ih strict depth
    exact ⟨fun _ refer => Run.meets_callValue inner (Run.evaluates (ih False depth) inner) refer,
      fun _ gone => Run.callValue_stale gone⟩

end JourneyMachine
