import JourneyMachine.Proofs.Composition.Instructions
import JourneyMachine.Proofs.Randomness.Stream

namespace JourneyMachine

namespace Machine

/-- The second machine has the settings of the first one, and its generator after some draws. -/
structure Draws (m m' : Machine) : Prop where
  settings : m'.settings = m.settings
  random : ∃ n, m'.random = m.random.drawn n

variable {m m₁ m₂ : Machine}

theorem Draws.of_same (settings : m₁.settings = m.settings) (random : m₁.random = m.random) :
    m.Draws m₁ := ⟨settings, 0, random⟩

theorem Draws.refl : m.Draws m := .of_same rfl rfl

theorem Draws.trans (first : m.Draws m₁) (second : m₁.Draws m₂) : m.Draws m₂ := by
  obtain ⟨settings, n, random⟩ := first
  obtain ⟨still, k, later⟩ := second
  exact ⟨still.trans settings, k + n, by rw [later, random, Random.drawn_add]⟩

end Machine

def Env.Draws (env : Env) : Prop :=
  ∀ callee args (m : Machine), m.Draws (after (env.call callee args m))

namespace Run

/-- A computation that leaves the generator alone but for drawing from it. -/
def Draws {α : Type} (c : Run α) : Prop :=
  ∀ env : Env, env.Draws → ∀ m : Machine, m.Draws (after (c env m))

variable {α β : Type} {c : Run α} {k : α → Run β}

section Rules

theorem Draws.apart (settings : ∀ env m, (after (c env m)).settings = m.settings)
    (random : ∀ env m, (after (c env m)).random = m.random) : Draws c :=
  fun env _ m => .of_same (settings env m) (random env m)

theorem Draws.bind (first : Draws c) (next : ∀ a, Draws (k a)) : Draws (c >>= k) := by
  intro env calls m
  have drawn := first env calls m
  cases done : c env m with
  | ok a m₁ =>
    rw [done] at drawn
    rw [bind_ok done]
    exact drawn.trans (next a env calls m₁)
  | error unwind m₁ =>
    rw [done] at drawn
    rw [bind_error done]
    exact drawn

/-- A computation is run on a machine with more pins or frames, which are then taken away. -/
theorem Draws.around {d : Run α} (inner : Draws c) (enter : Machine → Machine)
    (leave : Machine → EStateM.Result Unwind Machine α → EStateM.Result Unwind Machine α)
    (same : ∀ env m, d env m = leave m (c env (enter m)))
    (enters : ∀ m : Machine, m.Draws (enter m))
    (leaves : ∀ m result, (after result).Draws (after (leave m result))) : Draws d := by
  intro env calls m
  rw [same]
  exact ((enters m).trans (inner env calls (enter m))).trans (leaves m _)

theorem Draws.rescue {handler : Run α} (first : Draws c) (next : Draws handler) :
    Draws (rescue c handler) := by
  intro env calls m
  have drawn := first env calls m
  unfold Run.rescue
  split
  -- The handler goes on from the machine that threw, with the draws made up to there.
  · rename_i m₁ thrown
    rw [thrown] at drawn
    exact drawn.trans (next env calls m₁)
  · exact drawn

theorem draws_allocate {object : Object} : Draws (allocate object) := by
  apply Draws.apart
  all_goals
    intro env m
    unfold allocate
    dsimp only
    split <;> rfl

theorem serve_random (env : Env) (m : Machine) : serve .random env m =
    .ok (.numeral m.random.nextNumeral.1) { m with random := m.random.drawn 1 } := rfl

theorem Composed.draws (composed : Composed @Draws c) : Draws c := by
  induction composed with
  | given draws => exact draws
  | aside _ aside =>
    exact .apart (fun env m => (aside env m).settings) fun env m => (aside env m).random
  | allocate => exact draws_allocate
  | collect | update => exact .apart (fun _ _ => rfl) fun _ _ => rfl
  | random =>
    -- The only place where the generator moves, by one word.
    intro env _ m
    rw [serve_random]
    exact ⟨rfl, 1, rfl⟩
  | ask => exact fun _ calls m => calls _ _ m
  | get _ _ each => exact fun env calls m => each m env calls m
  | bind _ _ first next => exact first.bind next
  | pinned _ body =>
    refine body.around (·.pin _) (fun m => release m.pinned.length) (withPinned_eq _ _)
      (fun _ => .of_same rfl rfl) fun m result => ?_
    rcases result with _ | ⟨_ | _ | _, _⟩ <;> exact .of_same rfl rfl
  | framed _ body =>
    refine body.around (·.enter _ _) (fun m => leaving m.frames.length) (withFrame_eq _ _ _)
      (fun _ => .of_same rfl rfl) fun m result => ?_
    rcases result with _ | ⟨_ | _ | _, _⟩ <;> exact .of_same rfl rfl
  | rescued _ _ first next => exact first.rescue next

end Rules

section Instances

instance draws_get {k : Machine → Run β} [each : ∀ m, Composed @Draws (k m)] :
    Composed @Draws (MonadState.get >>= k) :=
  .given fun env calls m => (each m).draws env calls m

instance draws_update {h : Handle} {f : Object → Object} : Composed @Draws (update h f) :=
  .given (.apart (fun _ _ => rfl) fun _ _ => rfl)

instance draws_editForm {h : Handle} {f : Form → Form} : Composed @Draws (editForm h f) :=
  composed_bind

instance draws_editImitation {h : Handle} {f : Imitation → Imitation} :
    Composed @Draws (editImitation h f) := composed_bind

end Instances

section Loops

instance draws_step : Composed @Draws step :=
  composed_step fun _ _ _ => composed_setAttribute fun _ _ _ => draws_editImitation

instance draws_fetch : Composed @Draws fetch := by
  refine .given (.apart ?_ ?_)
  all_goals
    intro env m
    unfold fetch
    split <;> rfl

theorem draws_round : Composed @Draws round := composed_bind

theorem draws_loop {rounds : Nat} : Draws (loop rounds) := by
  induction rounds with
  | zero => exact composed_throw.draws
  | succ rounds ih =>
    have goesOn : Draws (round >>= proceed (loop rounds)) := by
      refine draws_round.draws.bind fun flow => ?_
      cases flow
      · exact ih
      · exact composed_pure.draws
    intro env calls m
    rw [loop_succ]
    exact goesOn env calls m

instance draws_evaluate {start : Nat} : Composed @Draws (evaluate start) :=
  composed_jump.bind fun _ => .given fun env calls m => draws_loop env calls m

end Loops

end Run

/-- Calls of every depth draw, by induction on how many may be inside each other. -/
theorem Machine.callAt_draws (depth inside : Nat) :
    Env.Draws { call := callAt depth, depth := inside } := by
  induction depth generalizing inside with
  | zero => exact fun _ _ _ => .refl
  | succ depth ih =>
    intro callee args m
    have draws : Run.Draws (Run.callValue Run.evaluate callee args) := Run.composed_callValue.draws
    exact draws _ (ih depth) m

end JourneyMachine
