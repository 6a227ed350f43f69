import JourneyMachine.Proofs.Composition.Rules
import JourneyMachine.Proofs.Exhaustion.Report

namespace JourneyMachine

namespace Run

variable {α β : Type} {strict : Prop} {env : Env} {m m' : Machine} {c : Run α} {k : α → Run β}

/-- No fetch of a computation assigns to the message of the exception that is set aside. -/
def Truthful (strict : Prop) (env : Env) (c : Run α) (m : Machine) : Prop :=
  strict → ∀ n < m.budget, ∀ halted, c env (m.withBudget n) = .error .halted halted →
    ¬ halted.RewritesReport

/-- However a computation ends, what was set aside still is. -/
structure Upholds (strict : Prop) (env : Env) (c : Run α) (m : Machine) : Prop where
  steady : Steady False env c m (after (c env m))
  builtins : (after (c env m)).builtins = m.builtins
  reserved : Truthful strict env c m → m.Reserved strict → (after (c env m)).Reserved strict

end Run

def Env.Loyal (env : Env) : Prop :=
  ∀ strict callee args m, Run.Upholds strict env (fun _ => env.call callee args) m

namespace Run

/-- A computation that upholds what is set aside wherever it starts. -/
def Loyal {α : Type} (c : Run α) : Prop :=
  ∀ {strict : Prop} {env : Env}, env.Loyal → ∀ m, Upholds strict env c m

variable {α β : Type} {strict : Prop} {env : Env} {m m' : Machine} {c : Run α} {k : α → Run β}

section Rules

theorem Truthful.next {a : α} (truthful : Truthful strict env (c >>= k) m)
    (same : c env m = .ok a m') (steady : Steady False env c m m') :
    Truthful strict env (k a) m' := by
  obtain ⟨spent, budget, _, again, _⟩ := steady
  intro assumed n less halted stopped
  have before := again n (Nat.le_of_lt less)
  rw [same] at before
  exact truthful assumed (spent + n) (by omega) halted ((bind_ok before).trans stopped)

theorem Upholds.bind (first : Upholds strict env c m)
    (next : ∀ a m', c env m = .ok a m' → m'.builtins = m.builtins → Upholds strict env (k a) m') :
    Upholds strict env (c >>= k) m := by
  have inherits : Truthful strict env (c >>= k) m → Truthful strict env c m :=
    fun truthful assumed n less halted stopped =>
      truthful assumed n less halted (bind_error stopped)
  obtain ⟨steady, builtins, reserved⟩ := first
  cases same : c env m with
  | ok a m₁ =>
    rw [same] at steady builtins reserved
    obtain ⟨later, still, kept⟩ := next a m₁ same builtins
    rw [← bind_ok same (k := k)] at later still kept
    exact ⟨.bind same steady later, still.trans builtins, fun truthful held =>
      kept (truthful.next same steady) (reserved (inherits truthful) held)⟩
  | error unwind m₁ =>
    rw [same] at steady builtins reserved
    constructor <;> rw [bind_error same]
    · exact steady.stops same
    · exact builtins
    · exact fun truthful => reserved (inherits truthful)

/-- A computation that takes nothing off the budget. -/
theorem Upholds.instant (same : ∀ n, c env (m.withBudget n) = rebudget n (c env m))
    (upholds : m.Upholds strict (after (c env m))) : Upholds strict env c m where
  steady := by
    have left : ∀ n (result : EStateM.Result Unwind Machine α),
        (after (rebudget n result)).budget = n := fun n result => by cases result <;> rfl
    have here : c env m = rebudget m.budget (c env m) := same m.budget
    exact .instant False.elim same ((congrArg (fun result => (after result).budget) here).trans
      (left m.budget _))
  builtins := upholds.builtins
  reserved _ := upholds.reserved

theorem Upholds.congr {d : Run α} (same : ∀ n, c env (m.withBudget n) = d env (m.withBudget n))
    (upholds : Upholds strict env d m) : Upholds strict env c m := by
  have here : c env m = d env m := same m.budget
  obtain ⟨steady, builtins, reserved⟩ := upholds
  constructor <;> rw [here]
  · refine steady.around rfl rfl .refl .refl (fun n halted => (same n).trans) fun n n' reached => ?_
    rw [here]
    exact (same n).trans reached
  · exact builtins
  · exact fun truthful => reserved fun assumed n less halted stopped =>
      truthful assumed n less halted ((same n).trans stopped)

theorem Upholds.get {k : Machine → Run β} (same : ∀ n, k (m.withBudget n) = k m)
    (upholds : Upholds strict env (k m) m) : Upholds strict env (MonadState.get >>= k) m :=
  upholds.congr fun n => by
    change k (m.withBudget n) env (m.withBudget n) = _
    rw [same]

theorem Upholds.modify {f : Machine → Machine}
    (same : ∀ n, f (m.withBudget n) = (f m).withBudget n) (upholds : m.Upholds strict (f m)) :
    Upholds strict env (modify f : Run PUnit) m :=
  .instant (fun n => congrArg (EStateM.Result.ok PUnit.unit) (same n)) upholds

/-- A computation only prepares and finishes another one. -/
theorem Upholds.around {e : Run β} {start : Machine} (inner : Upholds strict env c start)
    (enters : m.Upholds strict start)
    (leaves : (after (c env start)).Upholds strict (after (e env m)))
    (stops : ∀ n halted, c env (start.withBudget n) = .error .halted halted →
      e env (m.withBudget n) = .error .halted halted)
    (budget : start.budget = m.budget)
    (steady : Steady False env c start (after (c env start)) →
      Steady False env e m (after (e env m))) : Upholds strict env e m where
  steady := steady inner.steady
  builtins := leaves.builtins.trans (inner.builtins.trans enters.builtins)
  reserved truthful held := leaves.reserved (inner.reserved (fun assumed n less halted stopped =>
    truthful assumed n (budget ▸ less) halted (stops n halted stopped)) (enters.reserved held))

theorem Upholds.withPinned {values : List Value} (body : Upholds strict env c (m.pin values)) :
    Upholds strict env (withPinned values c) m := by
  refine body.around (.of_same rfl rfl) ?_ (fun n halted stopped => ?_) rfl fun steady => ?_
  · rw [withPinned_eq]
    rcases c env (m.pin values) with _ | ⟨_ | _ | _, _⟩ <;> exact .of_same rfl rfl
  · rw [withPinned_eq]
    exact congrArg (release m.pinned.length) stopped
  · rw [withPinned_eq]
    rcases ended : c env (m.pin values) with _ | ⟨_ | _ | _, _⟩ <;> rw [ended] at steady
    all_goals exact steady.withPinned rfl rfl rfl

theorem Upholds.withFrame {h : Handle} {p : Pattern} (body : Upholds strict env c (m.enter h p)) :
    Upholds strict env (withFrame h p c) m := by
  refine body.around (.of_same rfl rfl) ?_ (fun n halted stopped => ?_) rfl fun steady => ?_
  · rw [withFrame_eq]
    rcases c env (m.enter h p) with _ | ⟨_ | _ | _, _⟩ <;> exact .of_same rfl rfl
  · rw [withFrame_eq]
    exact congrArg (leaving m.frames.length) stopped
  · rw [withFrame_eq]
    rcases ended : c env (m.enter h p) with _ | ⟨_ | _ | _, _⟩ <;> rw [ended] at steady
    all_goals exact steady.withFrame rfl rfl rfl

theorem Upholds.rescue {c handler : Run α} (first : Upholds strict env c m)
    (next : ∀ m', c env m = .error .thrown m' → Upholds strict env handler m') :
    Upholds strict env (rescue c handler) m := by
  obtain ⟨steady, builtins, reserved⟩ := first
  have inherits : Truthful strict env (Run.rescue c handler) m → Truthful strict env c m :=
    fun truthful assumed n less halted stopped =>
      truthful assumed n less halted (rescue_other stopped fun _ equal => by cases equal)
  by_cases thrown : ∃ m₁, c env m = .error .thrown m₁
  · obtain ⟨m₁, same⟩ := thrown
    rw [same] at steady builtins reserved
    obtain ⟨later, still, kept⟩ := next m₁ same
    constructor <;> rw [rescue_thrown same]
    · exact .rescued same steady later
    · exact still.trans builtins
    · -- What the handler fetches, the whole fetches with the budget of the first part added.
      refine fun truthful held => kept (fun assumed n less halted stopped => ?_)
        (reserved (inherits truthful) held)
      obtain ⟨spent, budget, _, again, _⟩ := steady
      have before := again n (Nat.le_of_lt less)
      rw [same] at before
      have within : spent + n < m.budget := by rw [budget]; exact Nat.add_lt_add_left less spent
      exact truthful assumed (spent + n) within halted ((rescue_thrown before).trans stopped)
  · have other : ∀ m₁, c env m ≠ .error .thrown m₁ := fun m₁ same => thrown ⟨m₁, same⟩
    constructor <;> rw [rescue_other rfl other]
    · exact steady.spared other
    · exact builtins
    · exact fun truthful => reserved (inherits truthful)

end Rules

section Loyalty

theorem loyal_allocate {object : Object} : Loyal (allocate object) := by
  intro strict env _ m
  apply Upholds.instant
  · intro n
    cases done : m.heap.allocate object m.roots with
    | mk result heap =>
      have again : (m.withBudget n).heap.allocate object (m.withBudget n).roots =
          (result, heap) := done
      cases result with
      | ok h =>
        rw [Image.allocate_ok done, Image.allocate_ok again]
        rfl
      | error rejected =>
        rw [Image.allocate_error done, Image.allocate_error again]
        rfl
  · cases done : m.heap.allocate object m.roots with
    | mk result heap =>
      have kept : m.Upholds strict { m with heap } := ⟨rfl, fun reserved => reserved.allocate done⟩
      cases result with
      | ok h =>
        rw [Image.allocate_ok done]
        exact kept
      | error rejected =>
        rw [Image.allocate_error done]
        exact kept.trans (.of_same rfl rfl)

theorem Composed.loyal (composed : Composed @Loyal c) : Loyal c := by
  induction composed with
  | given loyal => exact loyal
  | aside instant aside =>
    exact fun _ m => .instant (instant _ m) (.of_same (aside _ m).heap (aside _ m).builtins)
  | allocate => exact loyal_allocate
  | collect => exact fun _ m => .instant (fun _ => rfl) ⟨rfl, Machine.Reserved.collect⟩
  | update texts imitations forms =>
    exact fun _ m => .modify (fun _ => rfl) (.edit (fun content _ => texts content)
      (fun g _ => forms g) fun i _ => ⟨i, imitations i, rfl, fun _ _ => rfl⟩)
  | random => exact fun _ m => .instant (fun _ => rfl) (.of_same rfl rfl)
  | ask => exact fun calls m => .congr (fun _ => rfl) (calls _ _ _ m)
  | get same _ each => exact fun calls m => .get (same m) (each m calls m)
  | bind _ _ first next => exact fun calls m => (first calls m).bind fun a m' _ _ => next a calls m'
  | pinned _ body => exact fun calls m => .withPinned (body calls _)
  | framed _ body => exact fun calls m => .withFrame (body calls _)
  | rescued _ _ first next =>
    exact fun calls m => (first calls m).rescue fun m' _ => next calls m'

theorem upholds [composed : Composed @Loyal c] (calls : env.Loyal) (m : Machine) :
    Upholds strict env c m := composed.loyal calls m

end Loyalty

end Run

end JourneyMachine
