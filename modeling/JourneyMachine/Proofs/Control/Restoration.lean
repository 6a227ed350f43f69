import JourneyMachine.Proofs.Control.Loading
import JourneyMachine.Proofs.Control.Steps

/-! Calls give back the control state. However a call ends, the frames and the pins are those before
it and handlers were only removed; at every fetch inside it, and at its end, the frames and handlers
are no more than the settings allow. -/

namespace JourneyMachine

open Host (World)
open Machine (Moves)

/-- A run from outside: a call of a value, or the entry journey with command-line arguments. -/
inductive Errand where
  | invoke (callee : Value) (args : Arguments)
  | main (argv : List String)

def Errand.body : Errand → Run Value
  | .invoke callee args => Run.invoke callee args
  | .main argv => Run.runMain argv

namespace Run

variable {α β : Type} {own : Nat} {env : Env} {m : Machine} {c : Run α}

theorem Orderly.settle (orderly : Orderly own env c m) : Orderly own env (settle c) m := by
  unfold Orderly Run.settle at *
  rcases same : c env m with _ | ⟨_ | _ | _, m₁⟩ <;> rw [same] at orderly
  · exact orderly
  · have taken : Moves own m₁ { m₁ with handlers := m₁.handlers.takeException.2 } :=
      ⟨rfl, rfl, rfl, rfl, rfl, .refl⟩
    exact ⟨orderly.1.trans taken, fun _ => rfl, trivial, fun first => (orderly.2.2 first).explains _⟩
  · exact orderly
  · exact orderly

theorem Orderly.installs {f : Machine → Except Fault Machine} {k : PUnit → Run β}
    (same : ∀ m', f m = .ok m' → m'.control = m.control) (next : ∀ m', Orderly own env (k ⟨⟩) m')
    (sincere : Sincere (f m)) :
    Orderly own env (do
      let r ← set (← Run.ofExcept (f (← MonadState.get)))
      k r) m := by
  refine .get ?_
  cases made : f m with
  | ok m₁ =>
    have installed : Orderly own env (set m₁ : Run PUnit) m := .still rfl (same m₁ made)
    exact installed.bind fun _ m' => next m'
  | error fault => exact .fail (sincere.plain_of_eq made).justified

variable (calls : env.Orderly)
include calls

theorem orderly_entry (callee : Value) (args : Arguments) :
    Orderly own env (callValue evaluate callee args) m :=
  orderly_callValue calls (fun start _ => orderly_evaluate calls start) callee args

theorem orderly_runMain (argv : List String) : Orderly own env (runMain argv) m := by
  refine .get ?_
  dsimp only
  split
  · exact .fail trivial
  · split
    · exact (orderly_entry calls _ _).settle
    · have texts : Orderly own env (textBook argv) m :=
        (Orderly.allocate _).bind fun _ _ =>
          .withPinned ((orderly_pushTexts ..).bind fun _ _ => .pure)
      refine texts.settle.bind fun v m₁ => .installs (fun m₂ made => ?_) (fun _ =>
        (orderly_entry calls _ _).settle) (.ite ⟨trivial⟩ ⟨trivial⟩)
      unfold Machine.setGlobal at made
      split at made <;> cases made
      rfl

theorem orderly_errand (errand : Errand) : Orderly own env errand.body m := by
  cases errand with
  | invoke callee args => exact (orderly_entry calls callee args).settle
  | main argv => exact orderly_runMain calls argv

end Run

section Conditions

variable {α : Type} {own : Nat} {m : Machine} {result : EStateM.Result Unwind Machine α}

theorem Run.Ends.bounded (ends : Run.Ends own m result) (bounded : m.Bounded) :
    (after result).Bounded ∧ (after result).settings = m.settings := by
  rcases result with _ | ⟨_ | _ | _, _⟩
  · exact ⟨ends.1.bounded bounded, ends.1.settings⟩
  · exact ⟨ends.1.bounded bounded, ends.1.settings⟩
  · exact ⟨ends.1.bounded bounded, ends.1.settings⟩
  · exact ⟨ends.bounded bounded, ends.settings⟩

theorem Run.Ends.ordered (ends : Run.Ends own m result) (ordered : m.Ordered) :
    (after result).Ordered := by
  rcases result with _ | ⟨_ | _ | _, _⟩
  · exact ends.1.ordered ordered
  · exact ends.1.ordered ordered
  · exact ends.1.ordered ordered
  · exact ends.ordered ordered

end Conditions

namespace Machine

/-- The calls of a machine in which so many calls may be inside each other. -/
def calling (depth : Nat) : Env := { call := callAt depth, depth }

/-- The frames and pins are those before, and handlers were only removed. -/
structure Restores (m m' : Machine) : Prop where
  frames : m'.frames = m.frames
  pinned : m'.pinned = m.pinned
  handlers : m'.handlers.records <:+ m.handlers.records

/-- A call gives back the control state unless it is halted; if the machine is within its limits, so
is the one that the call ends in or is halted in. -/
structure Survives {α : Type} (m : Machine) (result : EStateM.Result Unwind Machine α) : Prop where
  restores : (∀ m', result ≠ .error .halted m') → m.Restores (after result)
  bounded : m.Bounded → (after result).Bounded ∧ (after result).settings = m.settings

end Machine

theorem Run.Ends.survives {α : Type} {m : Machine} {result : EStateM.Result Unwind Machine α}
    (ends : Run.Ends 0 m result) : m.Survives result where
  bounded := ends.bounded
  restores := by
    intro ended
    have moves : Moves 0 m (after result) := by
      rcases result with _ | ⟨_ | _ | _, m'⟩
      · exact ends.1
      · exact ends.1
      · exact ends.1
      · exact absurd rfl (ended m')
    exact ⟨moves.frames, moves.pinned, moves.records.suffix⟩

namespace Machine

variable {settings : Settings} {world : World} {image : Image} {m : Machine}

theorem Loads.bounded (loads : Loads settings world image m) : m.Bounded := by
  have standing := loads.standing
  simp only [Machine.standing, Prod.mk.injEq] at standing
  obtain ⟨frames, handlers, given⟩ := standing
  constructor
  · simp [frames]
  · simp [handlers, HandlerStack.depth]
  · simp [handlers, given]

/-- At the limit on frames a call of a journey only complains: no pattern is tried. -/
theorem callJourney_full {env : Env} (full : m.settings.maxFrames ≤ m.frameDepth) (h : Handle)
    (args : Arguments) : Run.callJourney Run.evaluate h args env m =
      (Run.journey h >>= fun _ => Run.complain .tooManyFrames) env m := by
  cases found : Run.journey h env m with
  | error unwind m₁ => exact (Run.bind_error found).trans (Run.bind_error found).symm
  | ok j m₁ =>
    obtain ⟨_, rfl⟩ := (Run.onHeap_eq_ok).mp found
    refine ((Run.bind_ok found).trans ?_).trans (Run.bind_ok found).symm
    refine (Run.bind_ok (a := m) rfl).trans ?_
    rw [if_pos full]

/-- Calls restore the control state on every path. A run stays within the limits on frames and
handlers at every fetch and at its end; and from any machine, a call of a value or of a journey that
ends in a value, a throw or a fault gives back the frames and pins and has only removed handlers,
stays within the limits, and tries no pattern at the limit on frames. -/
theorem calls_restore (loads : Loads settings world image m) (errand : Errand) (budget : Nat) :
    (after ((m.withBudget budget).run errand.body)).Bounded ∧
    (after ((m.withBudget budget).run errand.body)).settings = settings ∧
    ∀ (m : Machine) (depth : Nat) (callee : Value) (args : Arguments) (h : Handle),
      m.Survives (Run.call? Run.evaluate callee args (calling depth) m) ∧
      m.Survives (Run.callValue Run.evaluate callee args (calling depth) m) ∧
      m.Survives (Run.callJourney Run.evaluate h args (calling depth) m) ∧
      (m.settings.maxFrames ≤ m.frameDepth →
        Run.callJourney Run.evaluate h args (calling depth) m =
          (Run.journey h >>= fun _ => Run.complain .tooManyFrames) (calling depth) m) := by
  have started : (m.withBudget budget).Bounded :=
    ⟨loads.bounded.frames, loads.bounded.handlers, loads.bounded.limit⟩
  have given : (m.withBudget budget).settings = settings := congrArg (·.2.2) loads.standing
  have run : Run.Ends 0 (m.withBudget budget) ((m.withBudget budget).run errand.body) :=
    Run.orderly_errand (callAt_orderly _ _) errand
  obtain ⟨bounded, same⟩ := run.bounded started
  refine ⟨bounded, same.trans given, fun m depth callee args h => ?_⟩
  have calls : (calling depth).Orderly := callAt_orderly depth depth
  have code : ∀ start m', Run.Orderly 1 (calling depth) (Run.evaluate start) m' :=
    fun start _ => Run.orderly_evaluate calls start
  refine ⟨?_, ?_, ?_, fun full => callJourney_full full h args⟩
  · exact Run.Ends.survives (Run.orderly_call calls code callee args)
  · exact Run.Ends.survives (Run.orderly_callValue calls code callee args)
  · exact Run.Ends.survives (Run.orderly_callJourney calls code h args)

def narrow : Settings := { heapSlots := 9, maxFrames := 3, maxHandlers := 2 }

/-- The entry installs a handler and calls a journey that calls another one; that one installs and
removes a handler of its own and then throws. -/
def relay : Image where
  journeys := [
    { name := "main"
      patterns := [{ block := { registers := 3, constants := [.journey 1], code := [
        Opcode.tryCatch.word, 12, 1, Opcode.cload.word, 0, 0, Opcode.call.word, 0, 0, 2,
        Opcode.ret.word, 2, Opcode.ret.word, 1] } }] },
    { name := "relay"
      patterns := [{ block := { registers := 2, constants := [.journey 2], code := [
        Opcode.cload.word, 0, 0, Opcode.call.word, 0, 0, 1, Opcode.ret.word, 1] } }] },
    { name := "fail"
      patterns := [{ block := { registers := 1, constants := [.numeral 7], code := [
        Opcode.tryCatch.word, 0, 0, Opcode.popTryCatch.word, Opcode.cload.word, 0, 0,
        Opcode.throw.word, 0] } }] }]
  main := some 0

/-- After six instructions of the entry there are three frames and two handlers, and what it calls
after two throws. -/
def throwsNested (m : Machine) : Bool :=
  let deepest := after ((m.withBudget 6).run (Run.runMain []))
  let before := (after ((m.withBudget 2).run (Run.runMain []))).withBudget 10
  deepest.frames.length = 3 && deepest.handlers.depth = 2 && before.frames.length = 1 &&
    match Run.callValue Run.evaluate (.journey ⟨5⟩) {} (calling 9) before with
    | .error .thrown _ => true
    | _ => false

/-- The limits are reached at the seventh fetch, and the call that the entry makes gives back the
one frame that there is before it, although it ends in a throw. -/
theorem relay_restores : ∃ m, Loads narrow {} relay m ∧
    (let deepest := after ((m.withBudget 6).run (Run.runMain []))
     deepest.frames.length = 3 ∧ deepest.handlers.depth = 2 ∧ deepest.Bounded) ∧
    let before := (after ((m.withBudget 2).run (Run.runMain []))).withBudget 10
    before.frames.length = 1 ∧
      before.Survives (Run.callValue Run.evaluate (.journey ⟨5⟩) {} (calling 9) before) ∧
      ∃ m',
        Run.callValue Run.evaluate (.journey ⟨5⟩) {} (calling 9) before = .error .thrown m' := by
  obtain ⟨m, loads, checked⟩ := loads_of narrow {} relay throwsNested (by decide +kernel)
  simp only [throwsNested, Bool.and_eq_true, decide_eq_true_eq] at checked
  obtain ⟨⟨⟨frames, handlers⟩, one⟩, thrown⟩ := checked
  have restored := calls_restore loads (.main []) 6
  refine ⟨m, loads, ⟨frames, handlers, restored.1⟩, one, (restored.2.2 _ 9 _ {} ⟨5⟩).2.1, ?_⟩
  split at thrown
  · exact ⟨_, ‹_›⟩
  · contradiction

end Machine

end JourneyMachine
