import JourneyMachine.Proofs.Control.Restoration

/-! Throws. The handlers of a run are ordered by the frames they belong to, so a throw that reaches
the loop of a frame finds the newest handler of that frame on top, if there is one. From a machine
with no exception in flight every fetch finds none, a value is returned with none, and what a throw
leaves in the exception slot is the value that was thrown last. -/

namespace JourneyMachine

open Machine (Moves)

/-- The frame at the position of a handler, with the exception in the handler's register. -/
def Frame.handling (f : Frame) (record : Handler) (exception : Value) : Frame :=
  { f with
    ip := record.resume
    registers := f.registers.setIfInBounds record.register exception }

/-- The machine in which the frame on top of `below` goes on at its newest handler. -/
def Machine.resumed (m : Machine) (top : Frame) (below : List Frame) (newest : Handler)
    (older : List Handler) : Machine :=
  { m.caught older with frames := top.handling newest m.handlers.exception :: below }

/-- What becomes of a throw that has reached the loop of the frame on top of `below`. The loop goes
on by `next` or ends with `result`. -/
structure Handled (m : Machine) (top : Frame) (below : List Frame)
    (next : Machine → EStateM.Result Unwind Machine Value)
    (result : EStateM.Result Unwind Machine Value) : Prop where
  resumes : ∀ newest older, m.handlers.records = newest :: older → newest.frame = below.length →
    newest.register < top.registers.size → newest.resume ≤ top.codeSize →
      result = next (m.resumed top below newest older)
  noRegister : ∀ newest older, m.handlers.records = newest :: older →
    newest.frame = below.length → top.registers.size ≤ newest.register →
      ∃ left, result = .error (.fatal (.malformed (.registerRange newest.register))) left
  noPosition : ∀ newest older, m.handlers.records = newest :: older →
    newest.frame = below.length → newest.register < top.registers.size →
    top.codeSize < newest.resume →
      ∃ left, result = .error (.fatal (.malformed (.jumpPastEnd newest.resume))) left
  passes : (∀ newest older, m.handlers.records = newest :: older → newest.frame ≠ below.length) →
    result = .error .thrown m ∧
    Run.leaving below.length result = .error .thrown { m with frames := below } ∧
    ∀ record ∈ m.handlers.records, record.frame < below.length

/-- No handler is discarded where none belongs to so deep a frame. -/
theorem HandlerStack.discard_shallow {s : HandlerStack} {depth : Nat}
    (shallow : ∀ record ∈ s.records, record.frame < depth) : s.discard depth = s := by
  obtain ⟨records, limit, exception, lastThrown, exitRequest⟩ := s
  cases records with
  | nil => rfl
  | cons newest older =>
    have less : newest.frame < depth := shallow newest (by simp)
    simp only [discard, List.dropWhile_cons, Nat.not_le.mpr less, decide_false]
    rfl

namespace Run

variable {α : Type} {env : Env} {m m' : Machine} {top : Frame} {below : List Frame}
  {newest : Handler} {older : List Handler}

theorem onFrame_ok {f : Frame → Except Fault (α × Frame)} {a : α} {changed : Frame}
    (frames : m.frames = top :: below) (same : f top = .ok (a, changed)) :
    onFrame f env m = .ok a { m with frames := changed :: below } := by
  simp only [onFrame, frames, same]

theorem onFrame_error {f : Frame → Except Fault (α × Frame)} {fault : Fault}
    (frames : m.frames = top :: below) (same : f top = .error fault) :
    onFrame f env m = .error (.fatal fault) m := by
  simp only [onFrame, frames, same]

theorem setRegister_ok {i : Nat} {v : Value} (frames : m.frames = top :: below)
    (inside : i < top.registers.size) : setRegister i v env m = .ok ()
      { m with frames := { top with registers := top.registers.setIfInBounds i v } :: below } :=
  onFrame_ok frames (by simp only [Frame.setRegister, inside]; rfl)

theorem setRegister_error {i : Nat} {v : Value} (frames : m.frames = top :: below)
    (outside : top.registers.size ≤ i) :
    setRegister i v env m = .error (.fatal (.malformed (.registerRange i))) m :=
  onFrame_error frames (by simp only [Frame.setRegister, Nat.not_lt.mpr outside]; rfl)

theorem jump_ok {target : Nat} (frames : m.frames = top :: below)
    (inside : target ≤ top.codeSize) :
    jump target env m = .ok () { m with frames := { top with ip := target } :: below } :=
  onFrame_ok frames (by simp only [Frame.jump, Nat.not_lt.mpr inside]; rfl)

theorem jump_error {target : Nat} (frames : m.frames = top :: below)
    (outside : top.codeSize < target) :
    jump target env m = .error (.fatal (.malformed (.jumpPastEnd target))) m :=
  onFrame_error frames (by simp only [Frame.jump, outside]; rfl)

section Resuming

variable (frames : m.frames = top :: below) (records : m.handlers.records = newest :: older)
  (own : newest.frame = below.length)
include frames records own

theorem resume_caught : resume env m =
    (do setRegister newest.register m.handlers.exception; jump newest.resume) env
      (m.caught older) := by
  refine resume_catches records ?_
  simp only [own, Machine.frameDepth, frames, List.length_cons, Nat.add_sub_cancel]

theorem resume_resumed (register : newest.register < top.registers.size)
    (position : newest.resume ≤ top.codeSize) :
    resume env m = .ok () (m.resumed top below newest older) := by
  rw [resume_caught frames records own]
  have stored : setRegister newest.register m.handlers.exception env (m.caught older) = .ok () _ :=
    setRegister_ok frames register
  rw [bind_ok stored]
  refine (jump_ok rfl ?_).trans rfl
  exact position

theorem resume_noRegister (register : top.registers.size ≤ newest.register) :
    resume env m = .error (.fatal (.malformed (.registerRange newest.register)))
      (m.caught older) := by
  rw [resume_caught frames records own]
  exact bind_error (setRegister_error frames register)

theorem resume_noPosition (register : newest.register < top.registers.size)
    (position : top.codeSize < newest.resume) :
    ∃ left, resume env m = .error (.fatal (.malformed (.jumpPastEnd newest.resume))) left := by
  rw [resume_caught frames records own]
  have stored : setRegister newest.register m.handlers.exception env (m.caught older) = .ok () _ :=
    setRegister_ok frames register
  rw [bind_ok stored]
  exact ⟨_, jump_error rfl position⟩

end Resuming

section Looping

variable (thrown : (fetch >>= fun _ => step) env m = .error .thrown m') (rounds : Nat)
include thrown

theorem loop_resumed {on : Machine} (resumed : resume env m' = .ok () on) :
    loop (rounds + 1) env m = loop rounds env on := by
  simp only [loop, thrown, resumed]

theorem loop_ended {unwind : Unwind} {left : Machine} (ended : resume env m' = .error unwind left) :
    loop (rounds + 1) env m = .error unwind left := by
  simp only [loop, thrown, ended]

/-- Where the handlers are ordered, the loop of a frame handles a throw by its own newest handler
or passes it on. -/
theorem loop_handled (ordered : m'.Ordered) (frames : m'.frames = top :: below) :
    Handled m' top below (loop rounds env) (loop (rounds + 1) env m) where
  resumes _ _ records own register position :=
    loop_resumed thrown rounds (resume_resumed frames records own register position)
  noRegister _ _ records own register :=
    ⟨_, loop_ended thrown rounds (resume_noRegister frames records own register)⟩
  noPosition _ _ records own register position := by
    obtain ⟨left, ended⟩ := resume_noPosition frames records own register position
    exact ⟨left, loop_ended thrown rounds ended⟩
  passes other := by
    have depth : m'.frameDepth - 1 = below.length := by
      simp only [Machine.frameDepth, frames, List.length_cons, Nat.add_sub_cancel]
    have passed := loop_ended thrown rounds (resume_passes (depth ▸ other))
    have shallow : ∀ record ∈ m'.handlers.records, record.frame < below.length := by
      intro record member
      cases records : m'.handlers.records with
      | nil =>
        rw [records] at member
        contradiction
      | cons newest older =>
        -- The newest handler belongs to the deepest frame that has any.
        have sorted := ordered.sorted
        have live := ordered.live newest (by simp [records])
        have differs := other newest older records
        rw [records] at member sorted
        rw [frames, List.length_cons] at live
        rcases List.mem_cons.mp member with rfl | later
        · omega
        · have below := List.rel_of_pairwise_cons sorted later
          omega
    have left : m'.unwindTo below.length = { m' with frames := below } := by
      have cut : oldest below.length m'.frames = below := by
        rw [frames]
        exact oldest_append [top] below
      simp only [Machine.unwindTo, cut, HandlerStack.discard_shallow shallow]
    refine ⟨passed, ?_, shallow⟩
    rw [passed, ← left]
    rfl

end Looping

/-- A throw reaches the loop of a frame with the frames below as they were. -/
theorem thrown_arrives (calls : env.Orderly) (frames : m.frames = top :: below)
    (thrown : (fetch >>= fun _ => step) env m = .error .thrown m') :
    Moves 1 m m' ∧ m'.InFlight ∧ ∃ now, m'.frames = now :: below := by
  have orderly : Orderly 1 env (fetch >>= fun _ => step) m :=
    (orderly_fetch).bind fun _ _ => orderly_step calls
  unfold Orderly at orderly
  rw [thrown] at orderly
  obtain ⟨moves, flight, _⟩ := orderly
  refine ⟨moves, flight, ?_⟩
  have length := moves.length
  have older := moves.below
  cases now : m'.frames with
  | nil => simp [now, frames] at length
  | cons f rest =>
    refine ⟨f, ?_⟩
    rw [now, frames, List.drop_one, List.drop_one, List.tail_cons, List.tail_cons] at older
    rw [older]

end Run

namespace Machine

/-- Throws reach the newest handler. In a run that starts with no handlers, the handlers are
ordered by their frames at every fetch and at the end. Where they are, the loop of a frame that a
throw reaches resumes at the newest handler exactly if that handler is the frame's own, and
otherwise passes the throw on with no handler left of this frame or a deeper one. -/
theorem throws_reach_newest {m : Machine} (records : m.handlers.records = []) (errand : Errand)
    (budget : Nat) :
    (after ((m.withBudget budget).run errand.body)).Ordered ∧
    ∀ (m m' : Machine) (f : Frame) (below : List Frame) (depth rounds : Nat), m.Ordered →
      m.frames = f :: below →
      (Run.fetch >>= fun _ => Run.step) (calling depth) m = .error .thrown m' →
      m'.Ordered ∧ m'.InFlight ∧ ∃ top, m'.frames = top :: below ∧
        Handled m' top below (Run.loop rounds (calling depth))
          (Run.loop (rounds + 1) (calling depth) m) := by
  have started : (m.withBudget budget).Ordered := by
    constructor <;> simp [Machine.withBudget, records]
  have run : Run.Ends 0 (m.withBudget budget) ((m.withBudget budget).run errand.body) :=
    Run.orderly_errand (callAt_orderly _ _) errand
  refine ⟨run.ordered started, fun m m' f below depth rounds ordered frames thrown => ?_⟩
  obtain ⟨moves, flight, top, now⟩ := Run.thrown_arrives (callAt_orderly _ _) frames thrown
  have still := moves.ordered ordered
  exact ⟨still, flight, top, now, Run.loop_handled thrown rounds still now⟩

/-- The second instruction of the entry throws a seven past one frame that has a handler. -/
def throwsSeven (m : Machine) : Bool :=
  let before := (after ((m.withBudget 2).run (Run.runMain []))).withBudget 10
  match before.frames, (Run.fetch >>= fun _ => Run.step) (calling 9) before with
  | [_], .error .thrown m' =>
    match m'.frames, m'.handlers.records with
    | [top], [newest] => newest.frame = 0 && newest.register < top.registers.size &&
      newest.resume ≤ top.codeSize && m'.handlers.lastThrown = .numeral 7
    | _, _ => false
  | _, _ => false

/-- The call that the entry makes throws, and the entry resumes at the handler it installed. -/
theorem relay_reaches : ∃ m, Loads narrow {} relay m ∧
    let before := (after ((m.withBudget 2).run (Run.runMain []))).withBudget 10
    ∃ m' top newest, (Run.fetch >>= fun _ => Run.step) (calling 9) before = .error .thrown m' ∧
      m'.Ordered ∧ m'.handlers.lastThrown = .numeral 7 ∧ m'.handlers.records = [newest] ∧
      Run.loop 10 (calling 9) before = Run.loop 9 (calling 9) (m'.resumed top [] newest []) := by
  obtain ⟨m, loads, checked⟩ := loads_of narrow {} relay throwsSeven (by decide +kernel)
  unfold throwsSeven at checked
  dsimp only at checked
  split at checked
  · rename_i f m' frames thrown
    split at checked
    · rename_i top newest now records
      simp only [Bool.and_eq_true, decide_eq_true_eq] at checked
      obtain ⟨⟨⟨own, register⟩, position⟩, seven⟩ := checked
      have empty : m.handlers.records = [] := congrArg (·.2.1.records) loads.standing
      obtain ⟨ordered, arrives⟩ := throws_reach_newest empty (.main []) 2
      obtain ⟨still, _, top', now', handled⟩ :=
        arrives (withBudget _ 10) m' f [] 9 9 ⟨ordered.sorted, ordered.live⟩ frames thrown
      cases now.symm.trans now'
      exact ⟨m, loads, m', top, newest, thrown, still, seven, records,
        handled.resumes newest [] records own register position⟩
    · contradiction
  · contradiction

/-- The machine when an uncaught exception was reported. -/
def settled (m : Machine) : Machine := { m with handlers := m.handlers.takeException.2 }

end Machine

namespace Run

variable {α β : Type} {env : Env} {m : Machine} {c : Run α} {k : α → Run β}

theorem settle_thrown {m' : Machine} (thrown : c env m = .error .thrown m') :
    settle c env m =
      .error (.fatal (.uncaught (m'.heap.display m'.handlers.exception))) m'.settled := by
  simp only [settle, thrown]
  rfl

def Throwless (env : Env) (c : Run α) : Prop := ∀ m m', c env m ≠ .error .thrown m'

theorem throwless_settle : Throwless env (settle c) := by
  intro m m' thrown
  unfold settle at thrown
  split at thrown
  · cases thrown
  · rename_i other
    exact other m' thrown

theorem Throwless.bind (first : Throwless env c) (next : ∀ a, Throwless env (k a)) :
    Throwless env (c >>= k) := by
  intro m m' thrown
  cases same : c env m with
  | ok a m₁ =>
    rw [bind_ok same] at thrown
    exact next a m₁ m' thrown
  | error unwind m₁ =>
    rw [bind_error same] at thrown
    cases thrown
    exact first m _ same

/-- What is done before the entry is called: it is looked up, and the arguments are stored. -/
def prepare (argv : List String) : Run Handle := do
  let program := (← get).program
  match program.main with
  | none => fail .missingEntry
  | some main =>
    match program.argvGlobal with
    | none => pure ()
    | some i =>
      let v ← settle (textBook argv)
      set (← ofExcept ((← get).setGlobal i v))
    return main

/-- Running the entry is preparing it and calling it from outside. -/
theorem runMain_eq (argv : List String) :
    runMain argv = prepare argv >>= fun main => invoke (.journey main) {} := by
  simp only [runMain, prepare, bind_assoc]
  refine congrArg (MonadState.get >>= ·) (funext fun m => ?_)
  cases m.program.main with
  | none => rfl
  | some main =>
    cases m.program.argvGlobal with
    | none => simp [invoke]
    | some i => simp [invoke]

theorem throwless_prepare (argv : List String) : Throwless env (prepare argv) := by
  have looks : Throwless env (MonadState.get : Run Machine) := fun _ _ thrown => by cases thrown
  have sets : ∀ m : Machine, Throwless env (set m : Run PUnit) :=
    fun _ _ _ thrown => by cases thrown
  have gives : ∀ main, Throwless env (pure main : Run Handle) := fun _ _ _ thrown => by cases thrown
  refine looks.bind fun m => ?_
  dsimp only
  split
  · exact fun _ _ thrown => by cases thrown
  · split
    · exact gives _
    · refine (throwless_settle).bind fun v => looks.bind fun m₁ => ?_
      cases m₁.setGlobal _ v with
      | ok m₂ => exact (sets m₂).bind fun _ => gives _
      | error fault => exact fun _ _ thrown => by cases thrown

theorem throwless_errand (errand : Errand) : Throwless env errand.body := by
  cases errand with
  | invoke callee args => exact throwless_settle
  | main argv =>
    have same : (Errand.main argv).body = _ := runMain_eq argv
    rw [same]
    exact (throwless_prepare argv).bind fun main => throwless_settle

/-- A computation that does not end in a throw leaves no exception in flight. -/
theorem Ends.unthrown {own : Nat} {result : EStateM.Result Unwind Machine α}
    (ends : Ends own m result) (quiet : m.Quiet) (other : ∀ m', result ≠ .error .thrown m') :
    (after result).Quiet := by
  rcases result with _ | ⟨_ | _ | _, m'⟩
  · exact ends.2.1 quiet
  · exact absurd rfl (other m')
  · exact ends.2.1 quiet
  · exact Machine.Visits.quiet ends quiet

end Run

namespace Machine

/-- No exception is swallowed or invented. A run that starts with none in flight finds none at any
fetch and leaves none. A call from such a machine that gives a value leaves none either, and one
that throws leaves the value that was thrown last, which a call from outside reports and takes from
the slot. Running the entry is such a call. -/
theorem exceptions_accounted {m : Machine} (quiet : m.Quiet) (errand : Errand) (budget : Nat) :
    (after ((m.withBudget budget).run errand.body)).Quiet ∧
    (∀ m', (m.withBudget budget).run errand.body ≠ .error .thrown m') ∧
    (∀ (m : Machine) (depth : Nat) (callee : Value) (args : Arguments), m.Quiet →
      (∀ v m', Run.callValue Run.evaluate callee args (calling depth) m = .ok v m' → m'.Quiet) ∧
      (∀ m', Run.callValue Run.evaluate callee args (calling depth) m = .error .halted m' →
        m'.Quiet) ∧
      ∀ m', Run.callValue Run.evaluate callee args (calling depth) m = .error .thrown m' →
        m'.handlers.exception = m'.handlers.lastThrown ∧
        Run.invoke callee args (calling depth) m =
          .error (.fatal (.uncaught (m'.heap.display m'.handlers.lastThrown))) m'.settled ∧
        m'.settled.Quiet) ∧
    ∀ argv, Run.runMain argv =
      Run.prepare argv >>= fun main => Run.invoke (.journey main) {} := by
  have run : Run.Ends 0 (m.withBudget budget) ((m.withBudget budget).run errand.body) :=
    Run.orderly_errand (callAt_orderly _ _) errand
  have never : ∀ m', (m.withBudget budget).run errand.body ≠ .error .thrown m' :=
    fun m' => Run.throwless_errand errand _ m'
  refine ⟨run.unthrown quiet never, never, fun m depth callee args quiet => ?_, Run.runMain_eq⟩
  have called : Run.Orderly 0 (calling depth) (Run.callValue Run.evaluate callee args) m :=
    Run.orderly_entry (callAt_orderly depth depth) callee args
  unfold Run.Orderly at called
  refine ⟨fun v m' done => ?_, fun m' halted => ?_, fun m' thrown => ?_⟩
  · rw [done] at called
    exact called.2.1 quiet
  · rw [halted] at called
    exact Visits.quiet called quiet
  · rw [thrown] at called
    have flight : m'.handlers.exception = m'.handlers.lastThrown := called.2.1
    refine ⟨flight, ?_, rfl⟩
    rw [← flight]
    exact Run.settle_thrown thrown

/-- The journey that the entry would handle throws what is shown as a seven. -/
def showsSeven (m : Machine) : Bool :=
  match Run.callValue Run.evaluate (.journey ⟨5⟩) {} (calling 9) (m.withBudget 20) with
  | .error .thrown m' => m'.heap.display m'.handlers.lastThrown = "Numeral(7)"
  | _ => false

/-- Called from outside, the journey whose throw the entry would handle is reported with the value
it throws. -/
theorem relay_accounted : ∃ m, Loads narrow {} relay m ∧
    (∀ budget, (after ((m.withBudget budget).run (Run.runMain []))).Quiet) ∧
    ∃ m' : Machine, Run.invoke (.journey ⟨5⟩) {} (calling 9) (m.withBudget 20) =
      .error (.fatal (.uncaught "Numeral(7)")) m'.settled ∧ m'.settled.Quiet := by
  obtain ⟨m, loads, checked⟩ := loads_of narrow {} relay showsSeven (by decide +kernel)
  unfold showsSeven at checked
  have quiet : m.handlers.exception = .ni := congrArg (·.2.1.exception) loads.standing
  refine ⟨m, loads, fun budget => (exceptions_accounted quiet (.main []) budget).1, ?_⟩
  obtain ⟨_, _, accounted, _⟩ := exceptions_accounted quiet (.main []) 20
  split at checked
  · rename_i m' thrown
    obtain ⟨_, reported, still⟩ := (accounted (m.withBudget 20) 9 _ _ quiet).2.2 m' thrown
    refine ⟨m', ?_, still⟩
    rw [reported, of_decide_eq_true checked]
  · contradiction

end Machine

end JourneyMachine
