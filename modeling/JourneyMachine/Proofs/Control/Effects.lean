import JourneyMachine.Proofs.Closure.Frames
import JourneyMachine.Proofs.Control.Faults

/-! What computations do to the control state: the frames, the pins, the handlers and the exception
slot. A computation that runs code of the frame on top may change that frame and install handlers
for it; any computation may remove handlers from the newest on. `Run.Orderly` says this of every way
a computation can end, and of the machine at the fetch at which it is halted. A fault that ends it
calls no word unknown that stands for something. -/

namespace JourneyMachine

/-- What becomes of the handlers while code of the topmost `own` of `depth` frames runs: some are
installed for the frame on top as long as there is room, and some are removed, the newest first. -/
inductive Reworked (own depth limit : Nat) (before : List Handler) : List Handler → Prop
  | refl : Reworked own depth limit before before
  | install {record : Handler} {after : List Handler} : Reworked own depth limit before after →
      0 < own → record.frame + 1 = depth → after.length < limit →
      Reworked own depth limit before (record :: after)
  | remove {record : Handler} {after : List Handler} :
      Reworked own depth limit before (record :: after) → Reworked own depth limit before after

namespace Reworked

variable {own more depth limit : Nat} {first second third : List Handler}

theorem trans (one : Reworked own depth limit first second)
    (two : Reworked own depth limit second third) : Reworked own depth limit first third := by
  induction two with
  | refl => exact one
  | install _ owned top room ih => exact ih.install owned top room
  | remove _ ih => exact ih.remove

theorem mono (reworked : Reworked own depth limit first second) (le : own ≤ more) :
    Reworked more depth limit first second := by
  induction reworked with
  | refl => exact .refl
  | install _ owned top room ih => exact ih.install (by omega) top room
  | remove _ ih => exact ih.remove

theorem of_suffix (suffix : second <:+ first) : Reworked own depth limit first second := by
  obtain ⟨newer, rfl⟩ := suffix
  induction newer with
  | nil => exact .refl
  | cons record newer ih => exact .trans (.remove .refl) ih

/-- Code that owns no frame only removes handlers. -/
theorem suffix (reworked : Reworked 0 depth limit first second) : second <:+ first := by
  induction reworked with
  | refl => exact List.suffix_refl first
  | install _ owned => omega
  | remove _ ih => exact (List.suffix_cons _ _).trans ih

/-- Without the handlers of the frame on top and deeper ones, handlers were only removed. -/
theorem discarded (reworked : Reworked own (depth + 1) limit first second) :
    (second.dropWhile fun record => depth ≤ record.frame) <:+ first := by
  induction reworked with
  | refl => exact List.dropWhile_suffix _
  | @install record after _ _ top _ ih =>
    have deep : depth ≤ record.frame := by omega
    simpa [List.dropWhile_cons, deep] using ih
  | @remove record after _ ih =>
    by_cases deep : depth ≤ record.frame
    · simpa [List.dropWhile_cons, deep] using ih
    · have kept : record :: after <:+ first := by simpa [List.dropWhile_cons, deep] using ih
      exact (List.dropWhile_suffix _).trans ((List.suffix_cons _ _).trans kept)

theorem length_le (reworked : Reworked own depth limit first second) (fits : first.length ≤ limit) :
    second.length ≤ limit := by
  induction reworked with
  | refl => exact fits
  | install _ _ _ room => simp only [List.length_cons]; omega
  | remove _ ih => simp only [List.length_cons] at ih; omega

theorem live (reworked : Reworked own depth limit first second)
    (live : ∀ record ∈ first, record.frame < depth) : ∀ record ∈ second, record.frame < depth := by
  induction reworked with
  | refl => exact live
  | install _ _ top _ ih =>
    intro record member
    rcases List.mem_cons.mp member with rfl | older
    · omega
    · exact ih record older
  | remove _ ih => exact fun record member => ih record (List.mem_cons_of_mem _ member)

theorem sorted (reworked : Reworked own depth limit first second)
    (live : ∀ record ∈ first, record.frame < depth)
    (sorted : first.Pairwise fun newer older => older.frame ≤ newer.frame) :
    second.Pairwise fun newer older => older.frame ≤ newer.frame := by
  induction reworked with
  | refl => exact sorted
  | install past _ top _ ih =>
    -- What is installed belongs to the deepest frame there is.
    refine List.pairwise_cons.mpr ⟨fun older member => ?_, ih⟩
    have below := past.live live older member
    omega
  | remove _ ih => exact ih.of_cons

end Reworked

/-- What code never changes of the frame it runs in. -/
def Frame.shape (f : Frame) : Handle × Pattern × Nat := (f.journey, f.pattern, f.registers.size)

namespace Machine

structure Bounded (m : Machine) : Prop where
  frames : m.frames.length ≤ m.settings.maxFrames
  handlers : m.handlers.depth ≤ m.settings.maxHandlers
  limit : m.handlers.limit = m.settings.maxHandlers

/-- A newer handler belongs to a frame at least as deep, and every handler to a live frame. -/
structure Ordered (m : Machine) : Prop where
  sorted : m.handlers.records.Pairwise fun newer older => older.frame ≤ newer.frame
  live : ∀ record ∈ m.handlers.records, record.frame < m.frames.length

/-- No exception is in flight. -/
def Quiet (m : Machine) : Prop := m.handlers.exception = .ni

/-- The exception in flight is the value that was thrown last. -/
def InFlight (m : Machine) : Prop := m.handlers.exception = m.handlers.lastThrown

def Going (m : Machine) : Prop := m.handlers.exitRequest = none

/-- A fault that ends a run is the exit that was asked for, if one was. -/
def Explains (m : Machine) (fault : Fault) : Prop :=
  ∀ n, m.handlers.exitRequest = some n → fault = .exit n.toInt32

/-- What a computation leaves of the control state if it runs code of the topmost `own` frames. -/
structure Moves (own : Nat) (m m' : Machine) : Prop where
  shape : m'.frames.map Frame.shape = m.frames.map Frame.shape
  below : m'.frames.drop own = m.frames.drop own
  pinned : m'.pinned = m.pinned
  settings : m'.settings = m.settings
  limit : m'.handlers.limit = m.handlers.limit
  records : Reworked own m.frames.length m.handlers.limit m.handlers.records m'.handlers.records

/-- What a fetch that a computation comes to finds of the conditions on the control state. -/
structure Visits (m m' : Machine) : Prop where
  settings : m'.settings = m.settings
  bounded : m.Bounded → m'.Bounded
  ordered : m.Ordered → m'.Ordered
  quiet : m.Quiet → m'.Quiet
  going : m.Going → m'.Going

/-- What is under control: everything that computations on the heap leave alone. -/
def control (m : Machine) : List Frame × List Value × Settings × HandlerStack :=
  (m.frames, m.pinned, m.settings, m.handlers)

variable {own more : Nat} {m m₁ m₂ : Machine}

theorem Going.explains (going : m.Going) (fault : Fault) : m.Explains fault := by
  intro n asked
  rw [going] at asked
  contradiction

namespace Moves

theorem refl : Moves own m m := ⟨rfl, rfl, rfl, rfl, rfl, .refl⟩

theorem length (moves : Moves own m m₁) : m₁.frames.length = m.frames.length := by
  simpa using congrArg List.length moves.shape

theorem of_control (same : m₁.control = m.control) : Moves own m m₁ := by
  simp only [control, Prod.mk.injEq] at same
  obtain ⟨frames, pinned, settings, handlers⟩ := same
  exact ⟨by rw [frames], by rw [frames], pinned, settings, by rw [handlers], handlers ▸ .refl⟩

theorem trans (first : Moves own m m₁) (second : Moves own m₁ m₂) : Moves own m m₂ where
  shape := second.shape.trans first.shape
  below := second.below.trans first.below
  pinned := second.pinned.trans first.pinned
  settings := second.settings.trans first.settings
  limit := second.limit.trans first.limit
  records := first.records.trans (by
    have later := second.records
    rwa [first.length, first.limit] at later)

theorem mono (moves : Moves own m m₁) (le : own ≤ more) : Moves more m m₁ where
  shape := moves.shape
  below := by
    obtain ⟨rest, rfl⟩ := Nat.exists_eq_add_of_le le
    rw [← List.drop_drop, ← List.drop_drop, moves.below]
  pinned := moves.pinned
  settings := moves.settings
  limit := moves.limit
  records := moves.records.mono le

theorem frames (moves : Moves 0 m m₁) : m₁.frames = m.frames := by simpa using moves.below

theorem bounded (moves : Moves own m m₁) (bounded : m.Bounded) : m₁.Bounded where
  frames := by
    rw [moves.length, moves.settings]
    exact bounded.frames
  handlers := by
    have fits := moves.records.length_le (by rw [bounded.limit]; exact bounded.handlers)
    rw [moves.settings, ← bounded.limit]
    exact fits
  limit := by rw [moves.limit, moves.settings, bounded.limit]

theorem ordered (moves : Moves own m m₁) (ordered : m.Ordered) : m₁.Ordered where
  sorted := moves.records.sorted ordered.live ordered.sorted
  live := by
    rw [moves.length]
    exact moves.records.live ordered.live

/-- A fetch that is come to after a computation. -/
theorem visits (moves : Moves own m m₁) (quiet : m.Quiet → m₁.Quiet) (going : m.Going → m₁.Going)
    (visits : Visits m₁ m₂) : Visits m m₂ where
  settings := visits.settings.trans moves.settings
  bounded := fun bounded => visits.bounded (moves.bounded bounded)
  ordered := fun ordered => visits.ordered (moves.ordered ordered)
  quiet := fun still => visits.quiet (quiet still)
  going := fun still => visits.going (going still)

end Moves

theorem Visits.refl : Visits m m := ⟨rfl, id, id, id, id⟩

/-- The pins of a computation are released. -/
theorem Moves.unpin {values : List Value} (moves : Moves own (m.pin values) m₁) :
    Moves own m (m₁.unpin m.pinned.length) where
  shape := moves.shape
  below := moves.below
  pinned := (congrArg (oldest m.pinned.length) moves.pinned).trans (oldest_append ..)
  settings := moves.settings
  limit := moves.limit
  records := moves.records

theorem Visits.pinned {values : List Value} (visits : Visits (m.pin values) m₁) : Visits m m₁ where
  settings := visits.settings
  bounded := fun bounded => visits.bounded ⟨bounded.frames, bounded.handlers, bounded.limit⟩
  ordered := fun ordered => visits.ordered ⟨ordered.sorted, ordered.live⟩
  quiet := visits.quiet
  going := visits.going

variable {h : Handle} {p : Pattern}

/-- A frame is left that a computation ran in. -/
theorem Moves.left (moves : Moves 1 (m.enter h p) m₁) :
    Moves own m (m₁.unwindTo m.frames.length) := by
  have one : m₁.frames.length = m.frames.length + 1 := moves.length
  have same : oldest m.frames.length m₁.frames = m.frames := by
    have cut : m₁.frames.length - m.frames.length = 1 := by omega
    rw [oldest, cut]
    exact moves.below
  have records : Reworked 1 (m.frames.length + 1) m.handlers.limit m.handlers.records
    m₁.handlers.records := moves.records
  exact {
    shape := congrArg (List.map Frame.shape) same
    below := congrArg (List.drop own) same
    pinned := moves.pinned
    settings := moves.settings
    limit := moves.limit
    records := .of_suffix records.discarded }

theorem Visits.entered (room : m.frames.length < m.settings.maxFrames)
    (visits : Visits (m.enter h p) m₁) : Visits m m₁ where
  settings := visits.settings
  bounded := fun bounded => visits.bounded ⟨room, bounded.handlers, bounded.limit⟩
  ordered := fun ordered => visits.ordered
    ⟨ordered.sorted, fun record member => Nat.lt_succ_of_lt (ordered.live record member)⟩
  quiet := visits.quiet
  going := visits.going

end Machine

namespace Run

open Machine (Moves Visits Quiet Going InFlight)

variable {α β : Type} {own : Nat} {env : Env} {m : Machine}

/-- How a computation from a machine may end if it runs code of the topmost `own` frames. -/
def Ends (own : Nat) (m : Machine) : EStateM.Result Unwind Machine α → Prop
  | .ok _ m' => Moves own m m' ∧ (m.Quiet → m'.Quiet) ∧ (m.Going → m'.Going)
  | .error .thrown m' => Moves own m m' ∧ m'.InFlight ∧ (m.Going → m'.Going)
  | .error (.fatal fault) m' =>
    Moves own m m' ∧ (m.Quiet → m'.Quiet) ∧ fault.Justified ∧ (m.Going → m'.Explains fault)
  | .error .halted m' => Visits m m'

/-- A computation keeps the control state but for the topmost `own` frames and their handlers. -/
def Orderly (own : Nat) (env : Env) (c : Run α) (m : Machine) : Prop := Ends own m (c env m)

section Rules

variable {c : Run α} {k : α → Run β}

theorem Orderly.moves {a : α} {m' : Machine} (orderly : Orderly own env c m)
    (done : c env m = .ok a m') : Moves own m m' := by
  unfold Orderly at orderly
  rw [done] at orderly
  exact orderly.1

theorem Ends.mono {result : EStateM.Result Unwind Machine α} (ends : Ends 0 m result) :
    Ends own m result := by
  rcases result with _ | ⟨_ | _ | _, _⟩
  · exact ⟨ends.1.mono (Nat.zero_le own), ends.2⟩
  · exact ⟨ends.1.mono (Nat.zero_le own), ends.2⟩
  · exact ⟨ends.1.mono (Nat.zero_le own), ends.2⟩
  · exact ends

theorem Ends.fault {fault : Fault} (justified : fault.Justified) :
    Ends own m (.error (.fatal fault) m : EStateM.Result Unwind Machine α) :=
  ⟨.refl, id, justified, fun going => going.explains fault⟩

theorem Ends.following {m₁ : Machine} {result : EStateM.Result Unwind Machine α}
    (moves : Moves own m m₁) (quiet : m.Quiet → m₁.Quiet) (going : m.Going → m₁.Going)
    (ends : Ends own m₁ result) : Ends own m result := by
  rcases result with _ | ⟨_ | _ | _, _⟩
  · obtain ⟨later, still, on⟩ := ends
    exact ⟨moves.trans later, fun first => still (quiet first), fun first => on (going first)⟩
  · obtain ⟨later, flight, on⟩ := ends
    exact ⟨moves.trans later, flight, fun first => on (going first)⟩
  · obtain ⟨later, still, justified, explained⟩ := ends
    exact ⟨moves.trans later, fun first => still (quiet first), justified,
      fun first => explained (going first)⟩
  · exact moves.visits quiet going ends

/-- The second computation need only keep the control state where the first can end. -/
theorem Orderly.seq (first : Orderly own env c m)
    (next : ∀ a m', c env m = .ok a m' → Moves own m m' → Orderly own env (k a) m') :
    Orderly own env (c >>= k) m := by
  unfold Orderly at first ⊢
  cases same : c env m with
  | ok a m' =>
    rw [same] at first
    rw [bind_ok same]
    exact .following first.1 first.2.1 first.2.2 (next a m' same first.1)
  | error unwind m' =>
    rw [same] at first
    rw [bind_error same]
    cases unwind <;> exact first

theorem Orderly.bind (first : Orderly own env c m) (next : ∀ a m', Orderly own env (k a) m') :
    Orderly own env (c >>= k) m :=
  first.seq fun a m' _ _ => next a m'

/-- A computation that leaves the control state alone. -/
theorem Orderly.still {a : α} {m' : Machine} (here : c env m = .ok a m')
    (same : m'.control = m.control) : Orderly own env c m := by
  unfold Orderly
  rw [here]
  have handlers : m'.handlers = m.handlers := congrArg (·.2.2.2) same
  refine ⟨.of_control same, fun quiet => ?_, fun going => ?_⟩
  · rw [Quiet, handlers]
    exact quiet
  · rw [Going, handlers]
    exact going

theorem Orderly.pure {a : α} : Orderly own env (Pure.pure a) m := .still rfl rfl

theorem Orderly.fail {fault : Fault} (justified : fault.Justified) :
    Orderly own env (Run.fail fault : Run α) m := .fault justified

theorem Orderly.ite {test : Prop} [Decidable test] {d : Run α} (holds : Orderly own env c m)
    (fails : Orderly own env d m) : Orderly own env (if test then c else d) m := by
  split
  · exact holds
  · exact fails

theorem Orderly.discard (orderly : Orderly own env c m) : Orderly own env (Functor.discard c) m :=
  orderly.bind (k := fun _ => Pure.pure ()) fun _ _ => .pure

theorem Orderly.get {k : Machine → Run β} (next : Orderly own env (k m) m) :
    Orderly own env (MonadState.get >>= k) m := next

theorem Orderly.read {k : Env → Run β} (next : Orderly own env (k env) m) :
    Orderly own env (MonadReader.read >>= k) m := next

theorem Orderly.modify {f : Machine → Machine} (same : (f m).control = m.control) :
    Orderly own env (modify f : Run PUnit) m := .still rfl same

theorem Orderly.exchange (request : Host.Platform → Host.Exchange α) :
    Orderly own env (Run.exchange request) m := .still rfl rfl

theorem Orderly.onHeap {f : Heap → Except Fault α} [sincere : ∀ heap, Sincere (f heap)] :
    Orderly own env (onHeap f) m := by
  unfold Orderly Run.onHeap
  cases looked : f m.heap with
  | ok a => exact ⟨.refl, id, id⟩
  | error fault => exact .fault ((sincere m.heap).plain_of_eq looked).justified

theorem Orderly.ofExcept {x : Except Fault α} [sincere : Sincere x] :
    Orderly own env (ofExcept x) m := by
  cases x with
  | ok a => exact .pure
  | error fault => exact .fail (sincere.plain_of_eq rfl).justified

theorem Orderly.raise (v : Value) : Orderly own env (Run.raise v : Run α) m :=
  ⟨⟨rfl, rfl, rfl, rfl, rfl, .refl⟩, rfl, id⟩

theorem Orderly.allocate (object : Object) : Orderly own env (Run.allocate object) m := by
  unfold Orderly Run.allocate
  dsimp only
  split
  · exact ⟨.of_control rfl, id, id⟩
  · exact ⟨⟨rfl, rfl, rfl, rfl, rfl, .refl⟩, rfl, id⟩

theorem Orderly.withPinned {values : List Value} (body : Orderly own env c (m.pin values)) :
    Orderly own env (withPinned values c) m := by
  unfold Orderly at body ⊢
  rw [withPinned_eq]
  rcases same : c env (m.pin values) with _ | ⟨_ | _ | _, _⟩ <;> rw [same] at body
  · exact ⟨body.1.unpin, body.2⟩
  · exact ⟨body.1.unpin, body.2⟩
  · exact ⟨body.1.unpin, body.2⟩
  · exact body.pinned

/-- A frame is entered where there is room for it, and left. -/
theorem Orderly.withFrame {h : Handle} {p : Pattern} (room : m.frames.length < m.settings.maxFrames)
    (body : Orderly 1 env c (m.enter h p)) : Orderly own env (withFrame h p c) m := by
  unfold Orderly at body ⊢
  rw [withFrame_eq]
  rcases same : c env (m.enter h p) with _ | ⟨_ | _ | _, _⟩ <;> rw [same] at body
  · exact ⟨body.1.left, body.2⟩
  · exact ⟨body.1.left, body.2⟩
  · exact ⟨body.1.left, body.2⟩
  · exact body.entered room

theorem Orderly.mapM {f : α → Run β} {values : List α} (each : ∀ a m', Orderly own env (f a) m') :
    Orderly own env (values.mapM f) m := by
  induction values generalizing m with
  | nil => exact .pure
  | cons a values ih =>
    rw [List.mapM_cons]
    exact (each a m).bind fun _ _ => ih.bind fun _ _ => .pure

theorem Orderly.anyM {f : α → Run Bool} {values : List α}
    (each : ∀ a m', Orderly own env (f a) m') : Orderly own env (values.anyM f) m := by
  induction values generalizing m with
  | nil => exact .pure
  | cons a values ih =>
    refine (each a m).bind fun found m' => ?_
    cases found
    · exact ih
    · exact .pure

end Rules

end Run

def Env.Orderly (env : Env) : Prop :=
  ∀ callee args m, Run.Ends 0 m (env.call callee args m)

theorem Run.Orderly.call {own : Nat} {env : Env} {m : Machine} (calls : env.Orderly)
    (callee : Value) (args : List Value) : Orderly own env (call callee args) m :=
  (calls callee (.ofList args) m).mono

end JourneyMachine
