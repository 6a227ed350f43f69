import JourneyMachine.Proofs.Closure.Regions

/-! Contracts of computations. A contract speaks of every way a computation can end. One that is
halted leaves a closed machine; any other end stays in the region. Under `strict` no fetch drops a
guard, and then no end is a dangling reference.

Which states a computation is halted in is known by running it on smaller budgets. For that an end
must not depend on the budget that is left, and a budget that does not reach it must halt the
computation in a state that precedes it: the end is `Steady`. -/

namespace JourneyMachine

open Machine (Within Active)

/-- The same end with another budget left. -/
def rebudget {α : Type} (n : Nat) :
    EStateM.Result Unwind Machine α → EStateM.Result Unwind Machine α
  | .ok a m => .ok a (m.withBudget n)
  | .error unwind m => .error unwind (m.withBudget n)

def after {α : Type} : EStateM.Result Unwind Machine α → Machine
  | .ok _ m => m
  | .error _ m => m

namespace Run

/-- No fetch of a computation drops a guard. -/
def Calm {α : Type} (env : Env) (c : Run α) (m : Machine) : Prop :=
  ∀ n < m.budget, ∀ m', c env (m.withBudget n) = .error .halted m' → ¬ m'.DropsGuard

/-- The end of a computation does not depend on the budget that is left: it takes so much off the
budget, ends in `after` whenever it may take that, and is otherwise halted on the way. -/
def Steady (shapes : Prop) {α : Type} (env : Env) (c : Run α) (m after : Machine) : Prop :=
  ∃ spent, m.budget = spent + after.budget ∧ (shapes → m.Precedes after) ∧
    (∀ n ≤ after.budget, c env (m.withBudget (spent + n)) = rebudget n (c env m)) ∧
    ∀ n < spent, ∃ m', c env (m.withBudget n) = .error .halted m' ∧ (shapes → m'.Precedes after)

/-- What a computation gives and where it ends. -/
def Meets {strict : Prop} (R : Region strict) (env : Env) {α : Type} (c : Run α) (m : Machine)
    (Q : α → Machine → Prop) : Prop :=
  R.holds m → (strict → Calm env c m) →
    match c env m with
    | .ok a m' => R.holds m' ∧ Q a m' ∧ Steady R.shapes env c m m'
    | .error .thrown m' => R.holds m' ∧ Steady R.shapes env c m m'
    | .error (.fatal fault) m' =>
      R.holds m' ∧ (strict → ∀ slot, fault ≠ .dangling slot) ∧ Steady R.shapes env c m m'
    | .error .halted m' => m'.Closed ∧ Steady R.shapes env c m m'

variable {strict shapes : Prop} {R : Region strict} {env : Env} {α β : Type} {m : Machine}

theorem onHeap_eq_ok {f : Heap → Except Fault α} {a : α} {m' : Machine} :
    onHeap f env m = .ok a m' ↔ f m.heap = .ok a ∧ m = m' := by
  unfold onHeap
  cases f m.heap <;> simp

section Binding

variable {c : Run α} {k : α → Run β}

theorem bind_ok {a : α} {m' : Machine} (same : c env m = .ok a m') :
    (c >>= k) env m = k a env m' := by
  change EStateM.bind (c env) (fun a => k a env) m = _
  simp only [EStateM.bind, same]

theorem bind_error {unwind : Unwind} {m' : Machine} (same : c env m = .error unwind m') :
    (c >>= k) env m = .error unwind m' := by
  change EStateM.bind (c env) (fun a => k a env) m = _
  simp only [EStateM.bind, same]

theorem bind_same {d : Run α} (same : c env m = d env m) : (c >>= k) env m = (d >>= k) env m := by
  change EStateM.bind (c env) (fun a => k a env) m = EStateM.bind (d env) (fun a => k a env) m
  simp only [EStateM.bind, same]

theorem Calm.first (calm : Calm env (c >>= k) m) : Calm env c m :=
  fun n less m' halted => calm n less m' (bind_error halted)

theorem Calm.next {a : α} {m' : Machine} (calm : Calm env (c >>= k) m)
    (same : c env m = .ok a m') (steady : Steady shapes env c m m') : Calm env (k a) m' := by
  obtain ⟨spent, budget, _, again, _⟩ := steady
  intro n less after halted
  have before := again n (Nat.le_of_lt less)
  rw [same] at before
  exact calm (spent + n) (by omega) after ((bind_ok before).trans halted)

/-- A computation goes on in another; where the first is halted, so are both. -/
theorem Steady.goesOn {d : Run β} {e : Run β} {m' after : Machine}
    (first : Steady shapes env c m m') (second : Steady shapes env d m' after)
    (stops : ∀ n halted, c env (m.withBudget n) = .error .halted halted →
      e env (m.withBudget n) = .error .halted halted)
    (goes : ∀ n n', c env (m.withBudget n) = rebudget n' (c env m) →
      e env (m.withBudget n) = d env (m'.withBudget n')) :
    Steady shapes env e m after := by
  obtain ⟨spent, whole, start, again, halts⟩ := first
  obtain ⟨more, left, later, anew, stalls⟩ := second
  have here : e env m = d env m' := goes m.budget m'.budget (by
    have reached := again m'.budget (Nat.le_refl _)
    rwa [← whole] at reached)
  refine ⟨spent + more, by omega, fun kept => (start kept).trans (later kept), fun n less => ?_,
    fun n less => ?_⟩
  · have reached := goes (spent + (more + n)) (more + n) (again (more + n) (by omega))
    rw [Nat.add_assoc, reached, anew n less, here]
  · -- Either the budget ends in the first computation, or the second starts with what is left.
    by_cases early : n < spent
    · obtain ⟨halted, same, precedes⟩ := halts n early
      exact ⟨halted, stops n halted same, fun kept => (precedes kept).trans (later kept)⟩
    · obtain ⟨halted, same, precedes⟩ := stalls (n - spent) (by omega)
      have reached := goes (spent + (n - spent)) (n - spent) (again (n - spent) (by omega))
      rw [Nat.add_sub_of_le (Nat.le_of_not_lt early)] at reached
      exact ⟨halted, reached.trans same, precedes⟩

theorem Steady.bind {a : α} {m' after : Machine} (same : c env m = .ok a m')
    (first : Steady shapes env c m m') (second : Steady shapes env (k a) m' after) :
    Steady shapes env (c >>= k) m after := by
  refine first.goesOn second (fun n halted => bind_error) fun n n' reached => ?_
  rw [same] at reached
  exact bind_ok reached

/-- A computation only prepares and finishes another one, without looking at the budget. -/
theorem Steady.around {e : Run β} {start m' after : Machine} (inner : Steady shapes env c start m')
    (budget : start.budget = m.budget) (left : after.budget = m'.budget)
    (enters : m.Precedes start) (leaves : m'.Precedes after)
    (stops : ∀ n halted, c env (start.withBudget n) = .error .halted halted →
      e env (m.withBudget n) = .error .halted halted)
    (ends : ∀ n n', c env (start.withBudget n) = rebudget n' (c env start) →
      e env (m.withBudget n) = rebudget n' (e env m)) :
    Steady shapes env e m after := by
  obtain ⟨spent, whole, precedes, again, halts⟩ := inner
  refine ⟨spent, by omega, fun kept => ?_, fun n less => ends _ n (again n (by omega)),
    fun n less => ?_⟩
  · exact (enters.trans (precedes kept)).trans leaves
  · obtain ⟨halted, same, earlier⟩ := halts n less
    exact ⟨halted, stops n halted same, fun kept => (earlier kept).trans leaves⟩

theorem Steady.stops {unwind : Unwind} {m' : Machine} (same : c env m = .error unwind m')
    (first : Steady shapes env c m m') : Steady shapes env (c >>= k) m m' := by
  refine first.around rfl rfl .refl .refl (fun n halted => bind_error) fun n n' reached => ?_
  rw [same] at reached
  rw [bind_error same]
  exact bind_error reached

theorem Meets.bind {P : α → Machine → Prop} {Q : β → Machine → Prop} (first : Meets R env c m P)
    (next : ∀ a m', R.holds m' → P a m' → Meets R env (k a) m' Q) :
    Meets R env (c >>= k) m Q := by
  intro holds calm
  have outcome := first holds fun assumed => (calm assumed).first
  cases same : c env m with
  | ok a m' =>
    rw [same] at outcome
    obtain ⟨still, post, steady⟩ := outcome
    -- The budget that makes the whole calm is what the first part leaves to the second.
    have rest := next a m' still post still fun assumed => (calm assumed).next same steady
    rw [bind_ok same]
    cases then_ : k a env m' with
    | ok b after =>
      rw [then_] at rest
      exact ⟨rest.1, rest.2.1, steady.bind same rest.2.2⟩
    | error unwind after =>
      rw [then_] at rest
      cases unwind with
      | thrown => exact ⟨rest.1, steady.bind same rest.2⟩
      | fatal fault => exact ⟨rest.1, rest.2.1, steady.bind same rest.2.2⟩
      | halted => exact ⟨rest.1, steady.bind same rest.2⟩
  | error unwind m' =>
    rw [same] at outcome
    rw [bind_error same]
    cases unwind with
    | thrown => exact ⟨outcome.1, outcome.2.stops same⟩
    | fatal fault => exact ⟨outcome.1, outcome.2.1, outcome.2.2.stops same⟩
    | halted => exact ⟨outcome.1, outcome.2.stops same⟩

end Binding

section Rules

variable {c d : Run α} {Q : α → Machine → Prop}

theorem Meets.intro (meets : R.holds m → Meets R env c m Q) : Meets R env c m Q :=
  fun holds => meets holds holds

theorem Meets.weaken {P : α → Machine → Prop} (meets : Meets R env c m P)
    (post : ∀ a m', R.holds m' → P a m' → Q a m') : Meets R env c m Q := by
  intro holds calm
  have outcome := meets holds calm
  cases same : c env m with
  | ok a m' =>
    rw [same] at outcome
    exact ⟨outcome.1, post a m' outcome.1 outcome.2.1, outcome.2.2⟩
  | error unwind m' =>
    rw [same] at outcome
    cases unwind <;> exact outcome

theorem Steady.mono {more : Prop} {m' : Machine} (steady : Steady shapes env c m m')
    (sub : more → shapes) : Steady more env c m m' := by
  obtain ⟨spent, budget, precedes, again, halts⟩ := steady
  refine ⟨spent, budget, fun kept => precedes (sub kept), again, fun n less => ?_⟩
  obtain ⟨halted, same, earlier⟩ := halts n less
  exact ⟨halted, same, fun kept => earlier (sub kept)⟩

/-- A computation that holds nothing when it ends keeps every region. -/
theorem Meets.lift (meets : Meets (.within strict m) env c m Q) : Meets R env c m Q := by
  intro holds calm
  have outcome := meets (.refl (R.closed holds)) calm
  have all : R.shapes → (Region.within strict m).shapes := fun _ => trivial
  cases same : c env m with
  | ok a m' =>
    rw [same] at outcome
    exact ⟨R.stable holds outcome.1, outcome.2.1, outcome.2.2.mono all⟩
  | error unwind m' =>
    rw [same] at outcome
    cases unwind with
    | thrown => exact ⟨R.stable holds outcome.1, outcome.2.mono all⟩
    | fatal fault => exact ⟨R.stable holds outcome.1, outcome.2.1, outcome.2.2.mono all⟩
    | halted => exact ⟨outcome.1, outcome.2.mono all⟩

/-- Two computations that do the same from a machine on every budget. -/
theorem Meets.congr (same : ∀ n, c env (m.withBudget n) = d env (m.withBudget n))
    (meets : Meets R env d m Q) : Meets R env c m Q := by
  intro holds calm
  have here : c env m = d env m := same m.budget
  have outcome := meets holds fun assumed n less m' halted =>
    calm assumed n less m' ((same n).trans halted)
  have steady : ∀ {after}, Steady R.shapes env d m after → Steady R.shapes env c m after := by
    intro after one
    refine one.around rfl rfl .refl .refl (fun n halted => (same n).trans) fun n n' reached => ?_
    rw [here]
    exact (same n).trans reached
  rw [here]
  cases result : d env m with
  | ok a m' =>
    rw [result] at outcome
    exact ⟨outcome.1, outcome.2.1, steady outcome.2.2⟩
  | error unwind m' =>
    rw [result] at outcome
    cases unwind with
    | thrown => exact ⟨outcome.1, steady outcome.2⟩
    | fatal fault => exact ⟨outcome.1, outcome.2.1, steady outcome.2.2⟩
    | halted => exact ⟨outcome.1, steady outcome.2⟩

/-- An end that takes nothing off the budget. -/
theorem Steady.instant {after : Machine} (precedes : shapes → m.Precedes after)
    (same : ∀ n, c env (m.withBudget n) = rebudget n (c env m))
    (budget : after.budget = m.budget) : Steady shapes env c m after :=
  ⟨0, by omega, precedes, fun n _ => by rw [Nat.zero_add, same],
    fun n less => absurd less (Nat.not_lt_zero n)⟩

theorem budget_same (result : Machine → EStateM.Result Unwind Machine α) {m' : Machine}
    (here : c env m = result m') (same : c env m = result (m'.withBudget m.budget))
    (injective : ∀ m₁ m₂, result m₁ = result m₂ → m₁ = m₂) : m'.budget = m.budget := by
  rw [injective _ _ (here.symm.trans same)]
  rfl

theorem Meets.instant {a : α} {m' : Machine} (here : c env m = .ok a m')
    (same : ∀ n, c env (m.withBudget n) = .ok a (m'.withBudget n))
    (post : R.holds m → R.holds m' ∧ Q a m')
    (precedes : R.shapes → m.Precedes m') :
    Meets R env c m Q := by
  intro holds _
  obtain ⟨still, established⟩ := post holds
  have budget := budget_same (.ok a) here (same m.budget) fun _ _ => by simp
  rw [here]
  exact ⟨still, established, .instant precedes (fun n => by rw [same, here]; rfl) budget⟩

/-- A throw that takes nothing off the budget. -/
theorem Meets.throws {m' : Machine} (here : c env m = .error .thrown m')
    (same : ∀ n, c env (m.withBudget n) = .error .thrown (m'.withBudget n))
    (still : R.holds m → R.holds m')
    (precedes : R.shapes → m.Precedes m') :
    Meets R env c m Q := by
  intro holds _
  have budget := budget_same (.error .thrown) here (same m.budget) fun _ _ => by simp
  rw [here]
  exact ⟨still holds, .instant precedes (fun n => by rw [same, here]; rfl) budget⟩

theorem Meets.fault (fault : Fault)
    (same : ∀ n, c env (m.withBudget n) = .error (.fatal fault) (m.withBudget n))
    (harmless : strict → ∀ slot, fault ≠ .dangling slot) : Meets R env c m Q := by
  intro holds _
  have here : c env m = .error (.fatal fault) m := same m.budget
  rw [here]
  exact ⟨holds, harmless, .instant (fun _ => .refl) (fun n => by rw [same, here]; rfl) rfl⟩

theorem Meets.pure {a : α} (post : R.holds m → Q a m) : Meets R env (Pure.pure a) m Q :=
  .instant rfl (fun _ => rfl) (fun holds => ⟨holds, post holds⟩) fun _ => .refl

theorem Meets.fail {fault : Fault} (harmless : strict → ∀ slot, fault ≠ .dangling slot) :
    Meets R env (Run.fail fault : Run α) m Q :=
  .fault _ (fun _ => rfl) harmless

theorem Meets.get {k : Machine → Run α} (same : ∀ n, k (m.withBudget n) = k m)
    (meets : Meets R env (k m) m Q) : Meets R env (MonadState.get >>= k) m Q :=
  meets.congr fun n => by
    change k (m.withBudget n) env (m.withBudget n) = _
    rw [same]

theorem Meets.changes {f : Machine → Machine} {Q : PUnit → Machine → Prop}
    (same : ∀ n, f (m.withBudget n) = (f m).withBudget n)
    (post : R.holds m → R.holds (f m) ∧ Q ⟨⟩ (f m))
    (precedes : R.shapes → m.Precedes (f m)) :
    Meets R env (modify f : Run PUnit) m Q :=
  .instant rfl (fun n => by rw [← same]; rfl) post precedes

theorem Meets.onHeap {f : Heap → Except Fault α}
    (harmless : strict → ∀ slot, f m.heap ≠ .error (.dangling slot))
    (post : ∀ a, f m.heap = .ok a → R.holds m → Q a m) : Meets R env (onHeap f) m Q := by
  cases same : f m.heap with
  | ok a =>
    have looked : ∀ n, Run.onHeap f env (m.withBudget n) = .ok a (m.withBudget n) := by
      intro n
      have there : f (m.withBudget n).heap = .ok a := same
      simp only [Run.onHeap, there]
    exact .instant (looked m.budget) looked (fun holds => ⟨holds, post a same holds⟩) fun _ => .refl
  | error fault =>
    refine .fault fault (fun n => ?_) fun assumed slot equal => harmless assumed slot ?_
    · have there : f (m.withBudget n).heap = .error fault := same
      simp only [Run.onHeap, there]
    · rw [same, equal]

theorem Meets.ofExcept {x : Except Fault α}
    (harmless : strict → ∀ slot, x ≠ .error (.dangling slot))
    (post : ∀ a, x = .ok a → R.holds m → Q a m) : Meets R env (ofExcept x) m Q := by
  cases x with
  | ok a => exact .pure fun holds => post a rfl holds
  | error fault => exact .fail fun assumed slot equal => harmless assumed slot (by rw [equal])

/-- The machine is replaced by what is made of it, whatever its budget. -/
theorem Meets.installs {f : Machine → Except Fault Machine} {k : PUnit → Run α}
    (same : ∀ n, f (m.withBudget n) = (f m).map (·.withBudget n))
    (harmless : strict → ∀ slot, f m ≠ .error (.dangling slot))
    (post : ∀ m', f m = .ok m' → R.holds m → R.holds m')
    (precedes : ∀ m', f m = .ok m' → R.shapes → m.Precedes m')
    (next : ∀ m', f m = .ok m' → Meets R env (k ⟨⟩) m' Q) :
    Meets R env (do
      let r ← set (← Run.ofExcept (f (← MonadState.get)))
      k r) m Q := by
  cases result : f m with
  | error fault =>
    refine .fault fault (fun n => ?_) fun assumed slot equal =>
      harmless assumed slot (by rw [result, equal])
    refine (bind_ok (a := m.withBudget n) rfl).trans (bind_error ?_)
    rw [same, result]
    rfl
  | ok m' =>
    have there : ∀ n, f (m.withBudget n) = .ok (m'.withBudget n) := fun n => by
      rw [same, result]
      rfl
    have budget : m'.withBudget m.budget = m' := Except.ok.inj ((there m.budget).symm.trans result)
    refine Meets.congr (d := (fun _ m => .ok ⟨⟩ (m'.withBudget m.budget) : Run PUnit) >>= k)
      (fun n => ?_) (Meets.bind (P := fun _ after => after = m') ?_ ?_)
    · refine (bind_ok (a := m.withBudget n) rfl).trans ?_
      rw [there]
      rfl
    · exact .instant (congrArg (EStateM.Result.ok PUnit.unit) budget) (fun _ => rfl)
        (fun holds => ⟨post m' result holds, rfl⟩) (precedes m' result)
    · rintro _ _ _ rfl
      exact next _ result

theorem Meets.discard (meets : Meets R env c m Q) :
    Meets R env (Functor.discard c) m fun _ m' => ∃ a, Q a m' :=
  (meets.bind (k := fun _ => Pure.pure ()) fun a _ _ post => .pure fun _ => ⟨a, post⟩).congr
    fun _ => rfl

/-- However a computation ends, the machine it leaves is closed. -/
theorem Meets.closed (meets : Meets R env c m Q) (holds : R.holds m)
    (calm : strict → Calm env c m) : (after (c env m)).Closed := by
  have outcome := meets holds calm
  cases same : c env m with
  | ok a m' =>
    rw [same] at outcome
    exact R.closed outcome.1
  | error unwind m' =>
    rw [same] at outcome
    cases unwind with
    | thrown => exact R.closed outcome.1
    | fatal fault => exact R.closed outcome.1
    | halted => exact outcome.1

theorem Meets.steady (meets : Meets R env c m Q) (holds : R.holds m)
    (calm : strict → Calm env c m) : Steady R.shapes env c m (after (c env m)) := by
  have outcome := meets holds calm
  cases same : c env m with
  | ok a m' =>
    rw [same] at outcome
    exact outcome.2.2
  | error unwind m' =>
    rw [same] at outcome
    cases unwind with
    | thrown => exact outcome.2
    | fatal fault => exact outcome.2.2
    | halted => exact outcome.2

/-- Where a computation is on a smaller budget comes before where it is on a larger one. -/
theorem Steady.precedes {less more : Nat} (steady : Steady shapes env c (m.withBudget more)
      (after (c env (m.withBudget more)))) (kept : shapes) (le : less ≤ more) :
    (after (c env (m.withBudget less))).Precedes (after (c env (m.withBudget more))) := by
  obtain ⟨spent, budget, _, again, halts⟩ := steady
  simp only [Machine.withBudget_budget, Machine.withBudget_withBudget] at budget again halts
  by_cases early : less < spent
  · obtain ⟨halted, same, precedes⟩ := halts less early
    rw [same]
    exact precedes kept
  · have reached := again (less - spent) (by omega)
    rw [Nat.add_sub_of_le (Nat.le_of_not_lt early)] at reached
    rw [reached]
    cases c env (m.withBudget more) <;> exact .same rfl rfl

/-- Under `strict` a computation does not end at a slot that is free. -/
theorem Meets.harmless (meets : Meets R env c m Q) (assumed : strict) (holds : R.holds m)
    (calm : Calm env c m) (slot : Nat) (left : Machine) :
    c env m ≠ .error (.fatal (.dangling slot)) left := by
  intro dangles
  have outcome := meets holds fun _ => calm
  rw [dangles] at outcome
  exact outcome.2.1 assumed slot rfl

end Rules

section Pins

def release (count : Nat) :
    EStateM.Result Unwind Machine α → EStateM.Result Unwind Machine α
  | .ok a m => .ok a (m.unpin count)
  | .error .halted m => .error .halted m
  | .error unwind m => .error unwind (m.unpin count)

theorem withPinned_eq (values : List Value) (c : Run α) (env : Env) (m : Machine) :
    withPinned values c env m = release m.pinned.length (c env (m.pin values)) := by
  simp only [withPinned, Machine.pin]
  generalize c env _ = result
  rcases result with _ | ⟨_ | _ | _, _⟩ <;> rfl

theorem rebudget_release (count : Nat) (n : Nat)
    (result : EStateM.Result Unwind Machine α) :
    rebudget n (release count result) = release count (rebudget n result) := by
  rcases result with _ | ⟨_ | _ | _, _⟩ <;> rfl

theorem Steady.withPinned {values : List Value} {c : Run α} {m' after : Machine}
    (steady : Steady shapes env c (m.pin values) m') (heap : after.heap = m'.heap)
    (builtins : after.builtins = m'.builtins) (budget : after.budget = m'.budget) :
    Steady shapes env (withPinned values c) m after := by
  refine steady.around rfl budget (.same rfl rfl) (.same heap builtins) (fun n halted same => ?_)
    fun n n' reached => ?_
  · rw [withPinned_eq]
    exact congrArg (release m.pinned.length) same
  · rw [withPinned_eq, withPinned_eq, rebudget_release, ← reached]
    rfl

/-- Values are pinned while a computation runs; they still refer when it has ended. -/
theorem Meets.withPinned {values : List Value} {c : Run α} {Q : α → Heap → Prop}
    (refer : R.holds m → ∀ v ∈ values, m.heap.Refers v)
    (body : Meets (.within strict (m.pin values)) env c (m.pin values) fun a m' => Q a m'.heap) :
    Meets R env (withPinned values c) m
      fun a m' => (∀ v ∈ values, m'.heap.Refers v) ∧ Q a m'.heap := by
  refine .intro fun holds => .lift fun _ calm => ?_
  have closed := (R.closed holds).pin (refer holds)
  have outcome := body (.refl closed) fun assumed n less m' halted =>
    calm assumed n less m' (by rw [withPinned_eq]; exact congrArg (release m.pinned.length) halted)
  rw [withPinned_eq]
  cases same : c env (m.pin values) with
  | ok a m' =>
    rw [same] at outcome
    obtain ⟨within, post, steady⟩ := outcome
    exact ⟨within.unpin, ⟨fun v member => within.refers (Machine.held_pinned member), post⟩,
      steady.withPinned rfl rfl rfl⟩
  | error unwind m' =>
    rw [same] at outcome
    cases unwind with
    | thrown => exact ⟨outcome.1.unpin, outcome.2.withPinned rfl rfl rfl⟩
    | fatal fault => exact ⟨outcome.1.unpin, outcome.2.1, outcome.2.2.withPinned rfl rfl rfl⟩
    | halted => exact ⟨outcome.1, outcome.2.withPinned rfl rfl rfl⟩

end Pins

end Run

end JourneyMachine
