import JourneyMachine.Proofs.Containers.Throws
import JourneyMachine.Proofs.Control.Calls
import JourneyMachine.Proofs.Dispatch.Keywords

/-! Matching that runs no code. Where a match ends before any code of a journey runs, and before a
journey of the host is called, it has changed nothing if it returns, and no object that the roots lead
to if it throws: a journey that is called then binds no pattern, so that its call only throws. -/

namespace JourneyMachine

open Run in
/-- Calls as a machine has them in which so many may be inside each other, up to where code of a
frame runs or a journey of the host is called: there the run ends. -/
def Machine.silentAt : Nat → Value → Arguments → EStateM Unwind Machine Value
  | depth + 1, .journey h, args =>
    (callValue (fun _ => tooDeep) (.journey h) args).run { call := silentAt depth, depth }
  | _, _, _ => throw (.fatal .tooDeep)

def Machine.silent (depth : Nat) : Env := { call := silentAt depth, depth }

namespace Run

variable {α β : Type} {env : Env} {m m' m₀ : Machine} {I T : Machine → Prop}

/-- A value is returned in a machine of one kind, and thrown in a machine of another kind. -/
def Landed (I T : Machine → Prop) : EStateM.Result Unwind Machine α → Prop
  | .ok _ m => I m
  | .error .thrown m => T m
  | .error _ _ => True

/-- What the ends of a computation are that starts in a machine of the kind in which it returns. -/
def Lands (env : Env) (I T : Machine → Prop) (c : Run α) : Prop := ∀ m, I m → Landed I T (c env m)

section Rules

variable {c : Run α} {k : α → Run β}

theorem Lands.bind (first : Lands env I T c) (next : ∀ a, Lands env I T (k a)) :
    Lands env I T (c >>= k) := by
  intro m holds
  have landed := first m holds
  cases done : c env m with
  | ok a m₁ =>
    rw [done] at landed
    rw [bind_ok done]
    exact next a m₁ landed
  | error unwind m₁ =>
    rw [done] at landed
    rw [bind_error done]
    cases unwind <;> exact landed

theorem Lands.pure {a : α} : Lands env I T (Pure.pure a) := fun _ holds => holds

theorem Lands.ite {test : Prop} [Decidable test] {d : Run α} (holds : Lands env I T c)
    (fails : Lands env I T d) : Lands env I T (if test then c else d) := by
  split
  · exact holds
  · exact fails

theorem Lands.onHeap {f : Heap → Except Fault α} : Lands env I T (onHeap f) := by
  intro m holds
  unfold Run.onHeap
  cases f m.heap with
  | ok a => exact holds
  | error fault => trivial

/-- What comes after the end of a run does not matter. -/
theorem Lands.never {k : Value → Run β} : Lands env I T (tooDeep >>= k) := fun _ _ => trivial

end Rules

section Calls

/-- What the roots of a machine lead to is there in another one. -/
def Unharmed (m₀ m : Machine) : Prop := m₀.heap.Retains m₀.roots m.heap

/-- A call has come so far that the frames are these. For the caller nothing has changed. -/
structure Stands (m₀ : Machine) (frames : List Frame) (m : Machine) : Prop where
  unharmed : Unharmed m₀ m
  frames : m.frames = frames
  program : m.program = m₀.program
  exception : m.handlers.exception = m₀.handlers.exception
  pinned : m.pinned = m₀.pinned
  builtins : m.builtins = m₀.builtins

def Above (m₀ m : Machine) : Prop := ∃ top, Stands m₀ (top :: m₀.frames) m

theorem Stands.roots (above : List Frame) (stands : Stands m₀ (above ++ m₀.frames) m) :
    ∀ h ∈ m₀.roots, h ∈ m.roots := by
  obtain ⟨_, frames, program, exception, pinned, builtins⟩ := stands
  intro h member
  simp only [Machine.roots, frames, program, exception, pinned, builtins, List.flatMap_append,
    List.mem_append] at member ⊢
  tauto

theorem above_allocate (object : Object) :
    Lands env (Above m₀) (Unharmed m₀) (allocate object) := by
  rintro m ⟨top, stands⟩
  have roots := Stands.roots [top] stands
  obtain ⟨unharmed, frames, program, exception, pinned, builtins⟩ := stands
  rcases allocate_cases unharmed.tidy object env with ⟨h, m', done, made⟩ | ⟨m', full, refused⟩
  · rw [done]
    have kept := made.retains.mono fun h member => List.mem_append_left _ (roots h member)
    refine ⟨top, unharmed.trans kept, ?_, ?_, ?_, ?_, ?_⟩ <;> rw [made.outside] <;> assumption
  · rw [full]
    exact unharmed.trans (refused.retains.mono roots)

theorem above_setRegister (i : Nat) (v : Value) :
    Lands env (Above m₀) (Unharmed m₀) (setRegister i v) := by
  rintro m ⟨top, stands⟩
  simp only [setRegister, onFrame, stands.frames]
  cases top.setRegister i v with
  | ok changed => exact ⟨changed, { stands with frames := rfl }⟩
  | error fault => trivial

theorem above_bindPositional (p : Pattern) (values : List Value) :
    Lands env (Above m₀) (Unharmed m₀) (bindPositional (fun _ => tooDeep) p values) := by
  have given : ∀ i parameters values, Lands env (Above m₀) (Unharmed m₀)
      (bindGiven i parameters values) := by
    intro i parameters values
    induction parameters generalizing i values with
    | nil => exact .pure
    | cons _ _ ih =>
      cases values with
      | nil => exact .pure
      | cons v values => exact (above_setRegister i v).bind fun _ => ih (i + 1) values
  have defaults : ∀ i parameters, Lands env (Above m₀) (Unharmed m₀)
      (bindDefaults (fun _ => tooDeep) i parameters) := by
    intro i parameters
    cases parameters with
    | nil => exact .pure
    | cons q rest =>
      unfold bindDefaults
      split
      · exact .pure
      · exact .never
  have splat : ∀ pages, Lands env (Above m₀) (Unharmed m₀)
      (do setRegister p.splatRegister (← newBook pages); return true) := by
    intro pages
    apply Lands.bind (.bind (above_allocate _) fun _ => .pure)
    exact fun v => (above_setRegister _ v).bind fun _ => .pure
  apply (given _ _ _).bind
  intro _
  apply Lands.ite (.ite (splat _) .pure)
  exact (defaults _ _).bind fun _ => .ite (.ite (splat _) .pure) .pure

theorem above_bindKeywords (p : Pattern) :
    Lands env (Above m₀) (Unharmed m₀) (bindKeywords (fun _ => tooDeep) p []) := by
  have defaults : ∀ i parameters, Lands env (Above m₀) (Unharmed m₀)
      (bindKeywordDefaults (fun _ => tooDeep) p [] i parameters) := by
    intro i parameters
    cases parameters with
    | nil => exact .pure
    | cons q rest =>
      simp only [bindKeywordDefaults, List.not_mem_nil, if_false]
      split
      · exact .pure
      · exact .never
  simp only [bindKeywords, bindKeywordArguments, pure_bind]
  apply (defaults _ _).bind
  intro _
  apply Lands.ite (.ite ?_ .pure) .pure
  apply (above_allocate _).bind
  exact fun _ => (above_setRegister _ _).bind fun _ => Lands.pure.bind fun _ => .pure

theorem above_checkGuards (registerOf : Nat → Nat) (i : Nat) (parameters : List Parameter) :
    Lands env (Above m₀) (Unharmed m₀) (checkGuards (fun _ => tooDeep) registerOf i parameters) := by
  induction parameters generalizing i with
  | nil => exact .pure
  | cons q rest ih =>
    unfold checkGuards
    split
    · exact ih (i + 1)
    · exact .never

theorem above_bindArguments (p : Pattern) (values : List Value) :
    Lands env (Above m₀) (Unharmed m₀) (bindArguments (fun _ => tooDeep) p (.ofList values)) := by
  have condition : Lands env (Above m₀) (Unharmed m₀) (checkCondition (fun _ => tooDeep) p) := by
    unfold checkCondition
    split
    · exact .pure
    · exact .never
  exact (above_bindPositional p values).bind fun _ => .ite .pure <|
    (above_bindKeywords p).bind fun _ => .ite .pure <|
      (above_checkGuards _ _ _).bind fun _ => .ite .pure <|
        (above_checkGuards _ _ _).bind fun _ => .ite .pure condition

/-- What is done in the frame of a pattern up to where its body would run. -/
def approach (p : Pattern) (values : List Value) : Run (Option Value) := do
  if ← bindArguments (fun _ => tooDeep) p (.ofList values) then return some (← tooDeep)
  else return none

/-- An attempt at a pattern does not come to its body. -/
def Missed (m₀ : Machine) : EStateM.Result Unwind Machine (Option Value) → Prop
  | .ok result m => result = none ∧ Above m₀ m
  | .error .thrown m => Unharmed m₀ m
  | .error _ _ => True

theorem above_approach (p : Pattern) (values : List Value) (above : Above m₀ m) :
    Missed m₀ (approach p values env m) := by
  have lands : Lands env (Above m₀) (Unharmed m₀) _ := above_bindArguments p values
  have landed := lands m above
  cases bound : bindArguments (fun _ => tooDeep) p (.ofList values) env m with
  | error unwind m₁ =>
    rw [bound] at landed
    rw [approach, bind_error bound]
    cases unwind <;> exact landed
  | ok binds m₁ =>
    rw [bound] at landed
    rw [approach, bind_ok bound]
    cases binds with
    | true => trivial
    | false => exact ⟨rfl, landed⟩

theorem Stands.unwound {top : Frame} (stands : Stands m₀ (top :: m₀.frames) m) :
    Stands m₀ m₀.frames (m.unwindTo m₀.frames.length) :=
  { stands with frames := by simp [Machine.unwindTo, oldest, stands.frames] }

/-- A computation that does not return, from where the caller stands. -/
def Fails (m₀ : Machine) : EStateM.Result Unwind Machine α → Prop := Landed (fun _ => False) (Unharmed m₀)

theorem stands_complain {complaint : Complaint} (stands : Stands m₀ m₀.frames m) :
    Fails m₀ ((complain complaint : Run α) env m) := by
  obtain ⟨m', thrown, threw⟩ := complain_threw stands.unharmed.tidy complaint
  rw [thrown]
  exact stands.unharmed.trans (threw.retains.mono (stands.roots []))

theorem stands_tryPatterns (h : Handle) (name : String) (values : List Value)
    (patterns : List Pattern) (stands : Stands m₀ m₀.frames m) :
    Fails m₀ (tryPatterns (fun _ => tooDeep) h name (.ofList values) patterns env m) := by
  -- Each attempt is made in a frame of its own, which is gone when the next one starts.
  induction patterns generalizing m with
  | nil => exact stands_complain stands
  | cons p rest ih =>
    have above : Above m₀ (m.enter h p) :=
      ⟨.start h p, { stands with frames := congrArg (_ :: ·) stands.frames }⟩
    have missed : Missed m₀ (approach p values env (m.enter h p)) := above_approach p values above
    have left := withFrame_eq h p (approach p values) env m
    rw [stands.frames] at left
    show Fails m₀ ((withFrame h p (approach p values) >>= _) env m)
    rcases ended : approach p values env (m.enter h p) with ⟨r, m₁⟩ | ⟨_ | _ | _, m₁⟩ <;>
      rw [ended] at missed left
    · obtain ⟨rfl, top, frame⟩ := missed
      rw [bind_ok left]
      exact ih frame.unwound
    · rw [bind_error left]
      exact missed
    · rw [bind_error left]
      trivial
    · rw [bind_error left]
      trivial

theorem stands_callJourney (h : Handle) (values : List Value) (stands : Stands m₀ m₀.frames m) :
    Fails m₀ (callJourney (fun _ => tooDeep) h (.ofList values) env m) := by
  have lands : Lands env (Stands m₀ m₀.frames) (Unharmed m₀) (journey h) := .onHeap
  have landed := lands m stands
  unfold callJourney
  cases read : journey h env m with
  | error unwind m₁ =>
    rw [read] at landed
    rw [bind_error read]
    cases unwind <;> exact landed
  | ok j m₁ =>
    obtain ⟨_, rfl⟩ := (onHeap_eq_ok).mp read
    rw [bind_ok read]
    show Fails m₀ ((if m.settings.maxFrames ≤ m.frameDepth then complain .tooManyFrames else
      tryPatterns (fun _ => tooDeep) h j.name (.ofList values) j.patterns : Run Value) env m)
    split
    · exact stands_complain stands
    · exact stands_tryPatterns h j.name values j.patterns stands

theorem Fails.bind {c : Run α} {k : α → Run β} (fails : Fails m₀ (c env m)) :
    Fails m₀ ((c >>= k) env m) := by
  cases ended : c env m with
  | ok a m₁ =>
    rw [ended] at fails
    cases fails
  | error unwind m₁ =>
    rw [ended] at fails
    rw [bind_error ended]
    cases unwind <;> exact fails

theorem Fails.withPinned {c : Run α} {values : List Value}
    (fails : Fails (m.pin values) (c env (m.pin values))) : Fails m (withPinned values c env m) := by
  rw [withPinned_eq]
  rcases ended : c env (m.pin values) with ⟨a, m₁⟩ | ⟨_ | _ | _, m₁⟩ <;> rw [ended] at fails
  · cases fails
  · exact fails.mono roots_pin
  · trivial
  · trivial

/-- No call returns before code runs. -/
theorem silent_call (tidy : m.heap.Tidy) (depth : Nat) (callee : Value) (values : List Value) :
    Fails m ((Machine.silent depth).call callee (.ofList values) m) := by
  cases depth with
  | zero => trivial
  | succ depth =>
    cases callee with
    | journey h =>
      show Fails m ((_ >>= _ : Run Value) { call := Machine.silentAt depth, depth } m)
      apply Fails.bind
      apply Fails.withPinned
      apply Fails.bind
      exact stands_callJourney h values ⟨.refl tidy, rfl, rfl, rfl, rfl, rfl⟩
    | _ => trivial

end Calls

section Matching

/-- A computation changes nothing if it returns, and nothing that the roots lead to if it throws. -/
def Tacit (env : Env) (c : Run α) : Prop := ∀ m, m.heap.Tidy → Landed (· = m) (Unharmed m) (c env m)

variable {c : Run α} {k : α → Run β}

theorem Tacit.lands (lands : ∀ m, m.heap.Tidy → Lands env (· = m) (Unharmed m) c) : Tacit env c :=
  fun m tidy => lands m tidy m rfl

theorem Tacit.bind (first : Tacit env c) (next : ∀ a, Tacit env (k a)) : Tacit env (c >>= k) := by
  apply Tacit.lands
  intro m tidy
  apply Lands.bind
  · rintro _ rfl
    exact first _ tidy
  · rintro a _ rfl
    exact next a _ tidy

theorem Tacit.pure {a : α} : Tacit env (Pure.pure a) := fun _ _ => rfl

theorem Tacit.fail {fault : Fault} : Tacit env (Run.fail fault : Run α) := fun _ _ => trivial

theorem Tacit.ite {test : Prop} [Decidable test] {d : Run α} (holds : Tacit env c)
    (fails : Tacit env d) : Tacit env (if test then c else d) := by
  split
  · exact holds
  · exact fails

theorem Tacit.onHeap {f : Heap → Except Fault α} : Tacit env (Run.onHeap f) :=
  .lands fun _ _ => .onHeap

theorem Tacit.get {k : Machine → Run β} (next : ∀ m, Tacit env (k m)) :
    Tacit env (MonadState.get >>= k) := fun m => next m m

theorem Tacit.fails (fails : ∀ m, m.heap.Tidy → Fails m (c env m)) : Tacit env c := by
  intro m tidy
  have landed := fails m tidy
  rcases ended : c env m with ⟨a, m₁⟩ | ⟨_ | _ | _, m₁⟩ <;> rw [ended] at landed
  · cases landed
  · exact landed
  · trivial
  · trivial

theorem Tacit.complain {complaint : Complaint} : Tacit env (complain complaint : Run α) :=
  .fails fun _ tidy => stands_complain ⟨.refl tidy, rfl, rfl, rfl, rfl, rfl⟩

theorem Tacit.withPinned {values : List Value} (body : Tacit env c) :
    Tacit env (withPinned values c) := by
  intro m tidy
  have landed := body (m.pin values) tidy
  rw [withPinned_eq]
  rcases ended : c env (m.pin values) with ⟨a, m₁⟩ | ⟨_ | _ | _, m₁⟩ <;> rw [ended] at landed
  · cases landed
    exact Machine.unpin_pin ..
  · exact landed.mono roots_pin
  · trivial
  · trivial

theorem Tacit.anyM {f : α → Run Bool} {values : List α} (each : ∀ a, Tacit env (f a)) :
    Tacit env (values.anyM f) := by
  induction values with
  | nil => exact .pure
  | cons a values ih =>
    apply (each a).bind
    intro found
    cases found
    · exact ih
    · exact .pure

variable {equal : Value → Value → Run Bool}

theorem tacit_findKey (equals : ∀ a b, Tacit env (equal a b)) (key : Value) (position : Nat)
    (entries : List (Value × Value)) : Tacit env (findKey? equal key position entries) := by
  induction entries generalizing position with
  | nil => exact .pure
  | cons e rest ih => exact (equals e.1 key).bind fun _ => .ite .pure (ih (position + 1))

theorem tacit_searchCodex (equals : ∀ a b, Tacit env (equal a b)) (h : Handle) (key : Value) :
    Tacit env (searchCodex equal h key) :=
  (Tacit.onHeap).bind fun entries => .withPinned (tacit_findKey equals key 0 entries)

theorem tacit_equalPages (equals : ∀ a b, Tacit env (equal a b)) (pairs : List (Value × Value)) :
    Tacit env (equalPages equal pairs) := by
  induction pairs with
  | nil => exact .pure
  | cons pair rest ih => exact (equals pair.1 pair.2).bind fun _ => .ite ih .pure

theorem tacit_equalEntries {lookup : Value → Run (Option (Nat × Value))}
    (equals : ∀ a b, Tacit env (equal a b)) (looks : ∀ key, Tacit env (lookup key))
    (entries : List (Value × Value)) : Tacit env (equalEntries equal lookup entries) := by
  induction entries with
  | nil => exact .pure
  | cons e rest ih =>
    apply (looks e.1).bind
    intro found
    cases found with
    | none => exact .pure
    | some place => exact (equals e.2 place.2).bind fun _ => .ite ih .pure

variable (calls : ∀ callee values m, m.heap.Tidy → Fails m (env.call callee (.ofList values) m))
include calls

theorem tacit_call (callee : Value) (args : List Value) : Tacit env (call callee args) :=
  .fails fun m tidy => calls callee args m tidy

theorem tacit_callChange (receiver : Value) (name : String) (args : List Value) :
    Tacit env (callChange? receiver name args) := by
  apply (Tacit.onHeap).bind
  intro change
  cases change with
  | none => exact .pure
  | some change => exact (tacit_call calls (.journey change) args).bind fun _ => .pure

theorem tacit_toVeracity (v : Value) : Tacit env (toVeracity v) := by
  cases v with
  | ni | veracity | numeral => exact .pure
  | text | book | codex => exact (Tacit.onHeap).bind fun _ => .pure
  | form | journey | other => exact (Tacit.onHeap).bind fun _ => .complain
  | imitation h =>
    have converted : Tacit env (convertBy? (.imitation h) "to_veracity" .veracity) := by
      apply (tacit_callChange calls _ _ _).bind
      intro result
      cases result with
      | none => exact .pure
      | some result => exact .ite .pure ((Tacit.onHeap).bind fun _ => .complain)
    apply converted.bind
    intro result
    cases result with
    | none => exact (Tacit.onHeap).bind fun _ => .complain
    | some result => exact .pure

theorem tacit_eqlWithin (room : Nat) (comparing : List (Handle × Handle)) (a b : Value) :
    Tacit env (eqlWithin room comparing a b) := by
  induction room generalizing comparing a b with
  | zero => exact .fail
  | succ room ih =>
    cases a with
    | text l =>
      cases b with
      | text r => exact .ite .pure ((Tacit.onHeap).bind fun _ => (Tacit.onHeap).bind fun _ => .pure)
      | _ => exact .pure
    | book l =>
      cases b with
      | book r =>
        apply Tacit.ite .pure
        exact (Tacit.onHeap).bind fun left => (Tacit.onHeap).bind fun right =>
          .ite .pure (.withPinned (tacit_equalPages (ih _) _))
      | _ => exact .pure
    | codex l =>
      cases b with
      | codex r =>
        apply Tacit.ite .pure
        exact (Tacit.onHeap).bind fun left => (Tacit.onHeap).bind fun right =>
          .ite .pure (.withPinned (tacit_equalEntries (ih _) (tacit_searchCodex (ih []) r) _))
      | _ => exact .pure
    | imitation h =>
      apply (tacit_callChange calls _ _ _).bind
      intro result
      cases result with
      | none => exact .pure
      | some result => exact tacit_toVeracity calls result
    | _ => exact .pure

theorem tacit_eql (a b : Value) : Tacit env (eql a b) :=
  .get fun _ => tacit_eqlWithin calls _ [] a b

/-- Matching that ends without code having run has changed nothing if it returns. -/
theorem tacit_matchesWithin (room : Nat) (visiting : List Handle) (pattern candidate : Value) :
    Tacit env (matchesWithin room visiting pattern candidate) := by
  induction room generalizing visiting pattern with
  | zero => exact .fail
  | succ room ih =>
    cases pattern with
    | form h =>
      cases candidate with
      | imitation i => exact (Tacit.onHeap).bind fun _ => .onHeap
      | _ => exact .pure
    | journey h => exact (tacit_call calls _ _).bind fun _ => tacit_toVeracity calls _
    | text h =>
      apply (Tacit.onHeap).bind
      intro content
      cases Genus.ofName? content with
      | none => exact tacit_eql calls _ _
      | some genus => exact .ite .pure (tacit_eql calls _ _)
    | book h =>
      apply Tacit.ite .pure
      exact (Tacit.onHeap).bind fun pages => .withPinned (.anyM fun page => ih _ page)
    | other h =>
      apply (Tacit.onHeap).bind
      intro object
      cases object with
      | both lhs rhs => exact (ih visiting lhs).bind fun _ => .ite (ih visiting rhs) .pure
      | either lhs rhs => exact (ih visiting lhs).bind fun _ => .ite .pure (ih visiting rhs)
      | opposite inner => exact (ih visiting inner).bind fun _ => .pure
      | host => exact (tacit_call calls _ _).bind fun _ => tacit_toVeracity calls _
      | scroll => exact .pure
    | ni | veracity | numeral => exact tacit_eql calls _ _
    | imitation | codex => exact (Tacit.onHeap).bind fun _ => .complain

theorem tacit_fits (pattern candidate : Value) : Tacit env (fits pattern candidate) :=
  .get fun _ => tacit_matchesWithin calls _ [] pattern candidate

end Matching

end Run

end JourneyMachine
