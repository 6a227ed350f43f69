import JourneyMachine.Proofs.Closure.Permanence
import JourneyMachine.Proofs.Exhaustion.Instructions

/-! Heap exhaustion is reported as such. A round upholds the exception that is set aside unless it
rewrites its message, and so, by induction on the budget and on how many calls may be inside each
other, does everything that a run consists of. Only a program that assigns to the message of the
exception it has caught changes what later exhaustions report. -/

namespace JourneyMachine

open Host (World)

namespace Run

variable {α β : Type} {strict : Prop} {env : Env} {m m' : Machine}

section Rounds

theorem fetch_ok {u : Unit} (done : fetch env m = .ok u m') :
    m = m'.withBudget (m'.budget + 1) := by
  unfold fetch at done
  split at done
  · contradiction
  · rename_i left budget
    cases done
    change m = { m with budget := left + 1 }
    rw [← Nat.succ_eq_add_one, ← budget]

theorem loyal_fetch : Loyal fetch := by
  intro strict env calls m
  cases budget : m.budget with
  | zero =>
    have here : fetch env m = .error .halted m := by simp only [fetch, budget]
    constructor <;> rw [here]
    · refine ⟨0, (Nat.zero_add _).symm, False.elim, fun n less => ?_, by simp⟩
      obtain rfl : n = 0 := Nat.le_zero.mp (budget ▸ less)
      rw [here]
      rfl
    · rfl
    · exact fun _ => id
  | succ left =>
    have here : fetch env m = .ok () (m.withBudget left) := by
      simp only [fetch, budget, Machine.withBudget]
    constructor <;> rw [here]
    · refine ⟨1, by simp [after, budget, Nat.add_comm], False.elim, fun n _ => ?_, fun n less => ?_⟩
      · rw [here, Nat.add_comm]
        rfl
      · obtain rfl : n = 0 := by omega
        exact ⟨m.withBudget 0, rfl, False.elim⟩
    · rfl
    · have same : m.Upholds strict (m.withBudget left) := .of_same rfl rfl
      exact fun _ => same.reserved

theorem Upholds.budget_le {c : Run α} (upholds : Upholds False env c m) :
    (after (c env m)).budget ≤ m.budget := by
  obtain ⟨spent, budget, _⟩ := upholds.steady
  exact budget ▸ Nat.le_add_left _ spent

variable (calls : env.Loyal)
include calls

/-- What follows a fetch is done where the budget would have halted the computation. -/
theorem upholds_fetch {k : Unit → Run β} (relaxed : ∀ m', Upholds False env (k ()) m')
    (next : ∀ m', (strict → ¬ m'.RewritesReport) → Upholds strict env (k ()) m') :
    Upholds strict env (fetch >>= k) m := by
  have first : ∀ {strict}, Upholds strict env fetch m := loyal_fetch calls m
  refine .assuming (first.bind fun _ m₁ _ _ => relaxed m₁) fun truthful _ => ?_
  refine first.bind fun _ m₁ fetched _ => next m₁ fun assumed => ?_
  -- With no budget at all the computation halts here, in the machine that is fetched from.
  have before := fetch_ok fetched
  have quiet := truthful assumed 0 (by rw [before]; exact Nat.succ_pos _) (m₁.withBudget 0)
    (bind_error (by rw [before]; rfl))
  exact quiet

theorem upholds_round : Upholds strict env round m := by
  refine upholds_fetch calls (fun m₁ => ?_) fun m₁ quiet => ?_
  · exact (upholds_step calls False.elim).rescue fun m₂ _ => upholds calls m₂
  · exact (upholds_step calls quiet).rescue fun m₂ _ => upholds calls m₂

theorem round_spends {flow : Flow} (done : round env m = .ok flow m') : m'.budget < m.budget := by
  obtain ⟨_, m₁, fetched, rest⟩ := (bind_eq_ok).mp done
  have handled : Upholds False env (rescue step do
      resume
      return .next) m₁ := (upholds_step calls False.elim).rescue fun m₂ _ => upholds calls m₂
  have less := handled.budget_le
  rw [rest] at less
  rw [fetch_ok fetched]
  exact Nat.lt_succ_of_le less

end Rounds

section Spinning

variable (calls : env.Loyal)
include calls

/-- A loop ends before its rounds are used up. -/
theorem loop_enough {rounds : Nat} (enough : m.budget < rounds) :
    loop rounds env m = spin env m := by
  induction budget : m.budget using Nat.strong_induction_on generalizing m rounds with
  | _ b ih =>
    subst budget
    obtain ⟨rounds, rfl⟩ : ∃ r, rounds = r + 1 := ⟨rounds - 1, by omega⟩
    rw [spin, loop_succ, loop_succ]
    cases same : round env m with
    | error unwind m' => rw [bind_error same, bind_error same]
    | ok flow m' =>
      have less := round_spends calls same
      rw [bind_ok same, bind_ok same]
      cases flow with
      | done v => rfl
      | next =>
        have first : loop rounds env m' = spin env m' := ih m'.budget less (by omega) rfl
        exact first.trans (ih m'.budget less less rfl).symm

theorem spin_round : spin env m = (round >>= proceed spin) env m := by
  rw [spin, loop_succ]
  cases same : round env m with
  | error unwind m' => rw [bind_error same, bind_error same]
  | ok flow m' =>
    rw [bind_ok same, bind_ok same]
    cases flow with
    | done v => rfl
    | next => exact loop_enough calls (round_spends calls same)

theorem upholds_spin : Upholds strict env spin m := by
  induction budget : m.budget using Nat.strong_induction_on generalizing m with
  | _ b ih =>
    subst budget
    refine Upholds.congr (fun n => spin_round calls) ?_
    refine (upholds_round calls).bind fun flow m' done _ => ?_
    cases flow with
    | done v => exact upholds (c := pure v) calls m'
    | next => exact ih m'.budget (round_spends calls done) rfl

omit calls

instance loyal_evaluate {start : Nat} : Composed @Loyal (evaluate start) :=
  .given fun calls m => .congr (d := jump start >>= fun _ => spin) (fun _ => rfl)
    (.bind (upholds calls m) fun _ _ _ _ => upholds_spin calls)

end Spinning

end Run

/-- Calls of every depth are loyal, by induction on how many may be inside each other. -/
theorem Machine.callAt_loyal (depth inside : Nat) :
    Env.Loyal { call := callAt depth, depth := inside } := by
  induction depth generalizing inside with
  | zero =>
    intro strict callee args m
    exact .instant (fun _ => rfl) .refl
  | succ depth ih =>
    intro strict callee args m
    have called : Run.Upholds strict _ (Run.callValue Run.evaluate callee args) m :=
      Run.upholds (ih depth) m
    exact ⟨called.steady, called.builtins, called.reserved⟩

namespace Run

/-- The computations whose throws are taken up, by a handler or by whoever asked for them: an
instruction, a call and the book of its arguments. -/
inductive Attempt : {α : Type} → Run α → Prop
  | instruction : Attempt (do fetch; step)
  | call (callee : Value) (args : Arguments) : Attempt (callValue evaluate callee args)
  | arguments (texts : List String) : Attempt (textBook texts)

theorem Attempt.loyal {c : Run α} (attempt : Attempt c) : Loyal c := by
  cases attempt with
  | instruction =>
    exact fun calls _ => upholds_fetch calls (fun _ => upholds_step calls False.elim)
      fun _ quiet => upholds_step calls quiet
  | call callee args => exact upholds
  | arguments texts => exact upholds

end Run

namespace Machine

variable {strict : Prop} {m m' : Machine}

/-- What a full heap throws imitates the built-in exception form. Under `strict` it says that the
heap is exhausted. -/
structure Reports (strict : Prop) (m : Machine) : Prop where
  imitates : ∃ matter, m.heap.get? m.builtins.heapExhausted =
    some (.imitation { form := m.builtins.exception, matter })
  message : strict →
    m.exceptionMessage? (.imitation m.builtins.heapExhausted) = some heapExhaustedMessage

theorem Reserved.reports (reserved : m.Reserved strict) : m.Reports strict := by
  obtain ⟨matter, report, message⟩ := reserved.report
  refine ⟨⟨matter, report⟩, fun assumed => ?_⟩
  obtain ⟨text, rfl, content⟩ := message assumed
  have look : m.heap.imitation m.builtins.heapExhausted =
      .ok { form := m.builtins.exception, matter := #[.text text] } := Heap.read_some report rfl
  have itself : m.heap.isDescendant m.builtins.exception m.builtins.exception = .ok true := by
    unfold Heap.isDescendant Heap.descendsWithin
    rw [if_pos rfl]
  have read : m.heap.text text = .ok heapExhaustedMessage := Heap.read_some content rfl
  simp only [exceptionMessage?, Heap.exceptionMessage?, look, itself, read]
  rfl

/-- The machines that loads, runs, collections and whatever leaves the heap alone lead to. Under
`strict` no instruction on the way assigns to the message of what a full heap throws. -/
inductive Reached (strict : Prop) : Machine → Prop
  | load {settings : Settings} {world : World} {image : Image} {m : Machine} :
      Loads settings world image m → Reached strict m
  | run {m : Machine} (errand : Errand) (budget : Nat) : Reached strict m →
      Run.Truthful strict (calling nestingLimit) errand.body (m.withBudget budget) →
      Reached strict (after ((m.withBudget budget).run errand.body))
  | attempt {α : Type} {c : Run α} {m : Machine} (depth budget : Nat) : Run.Attempt c →
      Reached strict m → Run.Truthful strict (calling depth) c (m.withBudget budget) →
      Reached strict (after (c (calling depth) (m.withBudget budget)))
  | aside {m m' : Machine} : Reached strict m → m'.heap = m.heap → m'.builtins = m.builtins →
      Reached strict m'
  | collect {m : Machine} : Reached strict m → Reached strict m.collect.2

theorem start_reserved {settings : Settings} {world : World} {m : Machine}
    (started : start settings world = .ok m) : m.Reserved strict := by
  obtain ⟨_, text, parents, consists⟩ := start_consists started
  constructor
  · exact (start_closed started).1.tidy
  · exact ⟨_, (consists _ _).mpr (List.mem_cons_self ..), rfl⟩
  · exact ⟨#[.text text], (consists _ _).mpr (by simp), fun _ =>
      ⟨text, rfl, (consists _ _).mpr (by simp)⟩⟩

theorem Loads.reserved {settings : Settings} {world : World} {image : Image}
    (loads : Loads settings world image m) : m.Reserved strict := by
  obtain ⟨fresh, journeys, started, loaded⟩ := loads
  obtain ⟨empty, _⟩ := start_consists started
  obtain ⟨placed, full, rooted, heap, builtins⟩ :=
    image.load_rooted (start_closed started).1.tidy empty loaded
  have kept : ({ fresh with heap := full.heap } : Machine).Reserved strict :=
    (start_reserved started).keep rooted.tidy rooted.kept
  have same : ({ fresh with heap := full.heap } : Machine).Upholds strict m :=
    .of_same heap (builtins.trans rooted.builtins)
  exact same.reserved kept

theorem Reached.reserved (reached : Reached strict m) : m.Reserved strict := by
  have loyal : ∀ depth, (calling depth).Loyal := fun depth => callAt_loyal depth depth
  have budgeted : ∀ {m : Machine} (budget : Nat), m.Upholds strict (m.withBudget budget) :=
    fun _ => .of_same rfl rfl
  induction reached with
  | load loads => exact loads.reserved
  | run errand budget _ truthful ih =>
    exact (Run.upholds (loyal _) _).reserved truthful ((budgeted budget).reserved ih)
  | attempt depth budget attempt _ truthful ih =>
    exact (attempt.loyal (loyal _) _).reserved truthful ((budgeted budget).reserved ih)
  | aside _ heap builtins ih => exact (Upholds.of_same heap builtins).reserved ih
  | collect _ ih => exact ih.collect

/-- Wherever a program has got to without assigning to the message of the exception that it may
have caught, an allocation for which a full collection makes no room throws an imitation of the
built-in exception form that says so. Where an instruction or a call passes a throw on, that
imitation is the one from before and still says so, however often the heap was exhausted inside and
whatever the program did with what it caught. -/
theorem exhaustion_reported (reached : Reached strict m) :
    (∀ env object rejected heap, m.heap.allocate object m.roots = (.error rejected, heap) →
      ∃ m', Run.allocate object env m = .error .thrown m' ∧
        m'.handlers.exception = .imitation m'.builtins.heapExhausted ∧ m'.Reports strict) ∧
    ∀ {α : Type} (c : Run α), Run.Attempt c → ∀ depth budget m',
      Run.Truthful strict (calling depth) c (m.withBudget budget) →
      c (calling depth) (m.withBudget budget) = .error .thrown m' →
      m'.builtins = m.builtins ∧ m'.Reports strict := by
  constructor
  · intro env object rejected heap full
    have raised : ({ m with heap } : Machine).Upholds strict { m with
        heap, handlers := m.handlers.throw (.imitation m.builtins.heapExhausted) } :=
      .of_same rfl rfl
    exact ⟨_, Image.allocate_error full, rfl,
      (raised.reserved (reached.reserved.allocate full)).reports⟩
  · intro α c attempt depth budget m' truthful thrown
    have loyal : (calling depth).Loyal := callAt_loyal depth depth
    have upholds : Run.Upholds strict (calling depth) c (m.withBudget budget) :=
      attempt.loyal loyal _
    have builtins := upholds.builtins
    have reaches := Reached.attempt depth budget attempt reached truthful
    rw [thrown] at builtins reaches
    exact ⟨builtins, reaches.reserved.reports⟩

/-- The entry of this program makes books on a full heap, and handles the first throw. -/
def filling (handler : List Word) : Image where
  journeys := [
    { name := "main"
      patterns := [
        { block := {
            registers := 3
            constants := [.text "msg", .text "fine"]
            code := [20, 7, 0, 8, 12, 0, 1] ++ handler ++ [8, 12, 0, 1, 8, 12, 0, 2, 29, 1] } }] }]
  main := some 0

/-- The handler stores another message in what it caught. -/
def forging : Image := filling [36, 1, 2, 70, 0, 2, 0]

def keepsReport (m : Machine) (budget : Nat) : Bool :=
  (List.range budget).all fun n =>
    match (m.withBudget n).run (Run.runMain []) with
    | .error .halted halted => !decide halted.RewritesReport
    | _ => true

theorem keepsReport.truthful {budget : Nat} (keeps : m.keepsReport budget = true) :
    Run.Truthful strict (calling nestingLimit) (Errand.main []).body (m.withBudget budget) := by
  intro _ n less halted same rewrites
  have safe := List.all_eq_true.mp keeps n (List.mem_range.mpr less)
  have stopped : (m.withBudget n).run (Run.runMain []) = .error .halted halted := same
  simp [stopped, rewrites] at safe

/-- The entry on that budget holds what a full heap threw, and the next book finds no room. -/
def exhaustsAgain (m : Machine) (budget : Nat) : Bool :=
  let stage := after ((m.withBudget budget).run (Run.runMain []))
  stage.frames.head?.bind (·.registers[0]?) = some (.imitation stage.builtins.heapExhausted) &&
  match stage.heap.allocate (.book #[]) stage.roots with
  | (.error _, _) => true
  | (.ok _, _) => false

theorem filling_reported : ∃ m, Loads { heapSlots := 7 } {} (filling []) m ∧
    let stage := after ((m.withBudget 2).run (Errand.main []).body)
    stage.frames.head?.bind (·.registers[0]?) = some (.imitation stage.builtins.heapExhausted) ∧
    ∃ m', Run.allocate (.book #[]) (calling nestingLimit) stage = .error .thrown m' ∧
      m'.exceptionMessage? m'.handlers.exception = some heapExhaustedMessage := by
  obtain ⟨m, loads, checked⟩ := loads_of { heapSlots := 7 } {} (filling [])
    (fun m => m.keepsReport 2 && m.exhaustsAgain 2) (by decide +kernel)
  obtain ⟨keeps, again⟩ := Bool.and_eq_true_iff.mp checked
  obtain ⟨caught, full⟩ := Bool.and_eq_true_iff.mp again
  have reached : Reached True (after ((m.withBudget 2).run (Errand.main []).body)) :=
    .run (.main []) 2 (.load loads) (keepsReport.truthful keeps)
  refine ⟨m, loads, of_decide_eq_true caught, ?_⟩
  split at full
  · rename_i rejected heap same
    obtain ⟨m', thrown, exception, reports⟩ :=
      (exhaustion_reported reached).1 (calling nestingLimit) (.book #[]) rejected heap same
    exact ⟨m', thrown, exception ▸ reports.message trivial⟩
  · contradiction

/-- Whether the next instruction of the entry on that budget makes a book for which there is no
room, and throws something that does not say so. -/
def misreports (m : Machine) (budget : Nat) : Bool :=
  let stage := after ((m.withBudget budget).run (Run.runMain []))
  stage.word? 0 = some Opcode.int.word && stage.word? 1 = some Interrupt.bookNew.word &&
  stage.word? 2 = some 0 &&
  match stage.heap.allocate (.book #[]) stage.roots,
    (do Run.fetch; Run.step : Run Flow) (calling nestingLimit) (stage.withBudget 1) with
  | (.error _, _), .error .thrown m' =>
    m'.exceptionMessage? m'.handlers.exception ≠ some heapExhaustedMessage
  | _, _ => false

/-- Without that condition what a full heap throws can say anything: the message that the handler
stored is the one of the next exhaustion. -/
theorem forging_misreports : ¬ ∀ settings world image m, Loads settings world image m →
    ∀ argv budget, let stage := after ((m.withBudget budget).run (Run.runMain argv))
      stage.word? 0 = some Opcode.int.word → stage.word? 1 = some Interrupt.bookNew.word →
      stage.word? 2 = some 0 → ∀ rejected heap m',
      stage.heap.allocate (.book #[]) stage.roots = (.error rejected, heap) →
      (do Run.fetch; Run.step : Run Flow) (calling nestingLimit) (stage.withBudget 1) =
        .error .thrown m' →
      m'.exceptionMessage? m'.handlers.exception = some heapExhaustedMessage := by
  intro always
  obtain ⟨m, loads, checked⟩ := loads_of { heapSlots := 7 } {} forging (misreports · 5)
    (by decide +kernel)
  simp only [misreports, Bool.and_eq_true, decide_eq_true_eq] at checked
  obtain ⟨⟨⟨int, book⟩, none⟩, thrown⟩ := checked
  split at thrown
  · rename_i rejected heap m' full ended
    exact of_decide_eq_true thrown
      (always _ _ _ m loads [] 5 int book none rejected heap m' full ended)
  · contradiction

end Machine

end JourneyMachine
