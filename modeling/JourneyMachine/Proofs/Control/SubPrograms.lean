import JourneyMachine.Proofs.Control.Nesting
import JourneyMachine.Proofs.Dispatch.Specification
import JourneyMachine.Proofs.Equality.Termination

/-! The sub-programs of a pattern. Where each of them returns outside the regions that it has entered,
binding leaves no handler in its frame, so a throw of the body is handled by what the body installed
or not at all. A sub-program that returns inside a region leaves the handler of the region. -/

namespace JourneyMachine

open Machine (Moves)

namespace Pattern

variable {p : Pattern} {q : Parameter} {start : Nat} {level : Nat → Option Nat}

/-- At the positions that sub-programs come to so many regions are open, and none where they start. -/
structure Levels (p : Pattern) (level : Nat → Option Nat) : Prop where
  nests : p.block.Nests level
  starts : ∀ start ∈ p.subPrograms, level start = some 0

/-- Sub-programs return outside all regions. -/
def Closes (p : Pattern) (level : Nat → Option Nat) : Prop :=
  ∀ ip n, p.block.Returns ip → level ip = some n → n = 0

theorem fallback_entry (member : q ∈ p.positional ++ p.keywords) (code : q.fallback = some start) :
    start ∈ p.subPrograms := by
  simp only [subPrograms, List.mem_append, List.mem_filterMap] at member ⊢
  exact .inl (.inl ⟨q, member, code⟩)

theorem guard_entry (member : q ∈ p.positional ++ p.keywords) (code : q.guard = some start) :
    start ∈ p.subPrograms := by
  simp only [subPrograms, List.mem_append, List.mem_filterMap] at member ⊢
  exact .inl (.inr ⟨q, member, code⟩)

theorem condition_entry (code : p.condition = some start) : start ∈ p.subPrograms := by
  simp [subPrograms, code]

end Pattern

theorem Machine.Moves.top {m m' : Machine} {f : Frame} {below : List Frame} (moves : Moves 1 m m')
    (frames : m.frames = f :: below) :
    ∃ changed, m'.frames = changed :: below ∧ changed.pattern = f.pattern := by
  have shape := moves.shape
  have rest := moves.below
  cases left : m'.frames with
  | nil =>
    rw [left, frames] at shape
    cases shape
  | cons changed others =>
    rw [left, frames] at shape rest
    have same : others = below := rest
    exact ⟨changed, by rw [same], congrArg (·.2.1) (List.cons.inj shape).1⟩

theorem Reworked.split {depth limit : Nat} {before after : List Handler}
    (reworked : Reworked 1 (depth + 1) limit before after) :
    ∃ own older, after = own ++ older ∧ older <:+ before ∧ ∀ record ∈ own, record.frame = depth := by
  -- Only code of the frame on top installs, so what it installed is newer than all that is left.
  induction reworked with
  | refl => exact ⟨[], before, rfl, List.suffix_refl _, by simp⟩
  | @install record after _ _ top _ ih =>
    obtain ⟨own, older, rfl, kept, mine⟩ := ih
    refine ⟨record :: own, older, rfl, kept, ?_⟩
    simpa using ⟨Nat.succ.inj top, mine⟩
  | @remove record after _ ih =>
    obtain ⟨own, older, records, kept, mine⟩ := ih
    cases own with
    | nil =>
      have fewer : after <:+ older := by
        rw [← List.nil_append older, ← records]
        exact List.suffix_cons ..
      exact ⟨[], after, rfl, fewer.trans kept, by simp⟩
    | cons newest own =>
      cases records
      exact ⟨own, older, rfl, kept, fun r member => mine r (List.mem_cons_of_mem _ member)⟩

namespace Run

variable {α β : Type} {env : Env} {m m' : Machine} {p : Pattern} {below : List Frame}
  {before : List Handler} {level : Nat → Option Nat}

/-- No instruction of a sub-program changes the handlers but those that install and remove them. -/
def Undisturbed (env : Env) (start : Nat) (m : Machine) : Prop :=
  ∀ m₁ m₂, jump start env m = .ok () m₁ → Comes env m₁ m₂ → restores env m₂ = true

/-- A sub-program leaves no handler, and none is missing if nothing that it calls removes any. -/
def Settled (env : Env) (start : Nat) (m m' : Machine) : Prop :=
  m'.handlers.records <:+ m.handlers.records ∧
    (Undisturbed env start m → m'.handlers.records = m.handlers.records)

open Classical in
/-- Sub-programs after which something else is done if they return and have not settled. -/
noncomputable def watched (otherwise : Run Value) (start : Nat) : Run Value := fun env m =>
  match evaluate start env m with
  | .ok v m' => if Settled env start m m' then .ok v m' else otherwise env m'
  | failed => failed

section Agreement

/-- Code of a pattern runs in the frame on top of `below`, and no handler was installed. -/
def Bare (p : Pattern) (below : List Frame) (before : List Handler) (m : Machine) : Prop :=
  ∃ top, m.frames = top :: below ∧ top.pattern = p ∧ m.handlers.records <:+ before

/-- From such a machine the second computation does what the first does, which leads to such a
machine. -/
def Agrees (env : Env) (I : Machine → Prop) (c d : Run α) : Prop :=
  ∀ m, I m → d env m = c env m ∧ ∀ a m', c env m = .ok a m' → I m'

variable {I : Machine → Prop} {c d : Run α} {k l : α → Run β}

theorem Agrees.bind (first : Agrees env I c d) (next : ∀ a, Agrees env I (k a) (l a)) :
    Agrees env I (c >>= k) (d >>= l) := by
  intro m holds
  obtain ⟨same, keeps⟩ := first m holds
  cases done : c env m with
  | ok a m₁ =>
    rw [bind_ok done, bind_ok (same.trans done)]
    exact next a m₁ (keeps a m₁ done)
  | error unwind m₁ =>
    rw [bind_error done, bind_error (same.trans done)]
    exact ⟨rfl, fun _ _ equal => by cases equal⟩

theorem Agrees.pure {a : α} : Agrees env I (Pure.pure a) (Pure.pure a) := by
  intro m holds
  refine ⟨rfl, fun b m' done => ?_⟩
  obtain ⟨_, rfl⟩ := (pure_eq_ok).mp done
  exact holds

theorem Agrees.ite {test : Prop} [Decidable test] {c' d' : Run α} (holds : Agrees env I c d)
    (fails : Agrees env I c' d') :
    Agrees env I (if test then c else c') (if test then d else d') := by
  split
  · exact holds
  · exact fails

theorem Agrees.orderly (orderly : ∀ m, Orderly 0 env c m) : Agrees env (Bare p below before) c c := by
  rintro m ⟨top, frames, pattern, kept⟩
  refine ⟨rfl, fun a m' done => ?_⟩
  have moves := (orderly m).moves done
  exact ⟨top, moves.frames.trans frames, pattern, moves.records.suffix.trans kept⟩

theorem Agrees.onFrame {g : Frame → Except Fault (α × Frame)}
    (orderly : ∀ m, Orderly 1 env (onFrame g) m) :
    Agrees env (Bare p below before) (onFrame g) (onFrame g) := by
  rintro m ⟨top, frames, pattern, kept⟩
  refine ⟨rfl, fun a m' done => ?_⟩
  obtain ⟨changed, left, same⟩ := ((orderly m).moves done).top frames
  obtain ⟨_, _, _, _, _, rfl⟩ := onFrame_eq_ok done
  exact ⟨changed, left, same.trans pattern, kept⟩

theorem agrees_setRegister (i : Nat) (v : Value) :
    Agrees env (Bare p below before) (setRegister i v) (setRegister i v) :=
  .onFrame fun _ => orderly_setRegister i v

theorem agrees_register (i : Nat) :
    Agrees env (Bare p below before) (register i) (register i) := .onFrame fun _ => orderly_register i

/-- A sub-program that returns outside all regions passes the watch. -/
theorem agrees_evaluate (calls : env.Orderly) (levels : p.Levels level) (closes : p.Closes level)
    (fresh : ∀ record ∈ before, record.frame < below.length) {start : Nat}
    (entry : start ∈ p.subPrograms) (otherwise : Run Value) :
    Agrees env (Bare p below before) (evaluate start) (watched otherwise start) := by
  rintro m ⟨top, frames, rfl, kept⟩
  cases done : evaluate start env m with
  | error unwind m' =>
    refine ⟨?_, fun _ _ equal => by cases equal⟩
    simp only [watched, done]
  | ok v m' =>
    obtain ⟨ip, n, returns, place, own, older, records, nested, less, exact⟩ :=
      evaluate_guards calls levels.nests frames rfl (fun r member => fresh r (kept.subset member))
        (levels.starts start entry) done (Undisturbed env start m) id
    -- Where it returns no region is open, so none of its own handlers is left.
    obtain rfl := closes ip n returns place
    have none : own = [] := List.eq_nil_of_length_eq_zero (by have := nested.length_le; omega)
    subst none
    have settled : Settled env start m m' := by
      rw [Settled, records]
      exact ⟨less, fun assumed => (exact assumed).1⟩
    refine ⟨by simp only [watched, done, if_pos settled], ?_⟩
    rintro _ _ ⟨⟩
    obtain ⟨changed, left, same⟩ := ((orderly_evaluate calls start).moves done).top frames
    exact ⟨changed, left, same, settled.1.trans kept⟩

end Agreement

section Binding

variable {other : Nat → Run Value} (code : ∀ start ∈ p.subPrograms,
  Agrees env (Bare p below before) (evaluate start) (other start))
include code

theorem agrees_bindDefaults (i : Nat) (parameters : List Parameter)
    (within : ∀ q ∈ parameters, q ∈ p.positional ++ p.keywords) :
    Agrees env (Bare p below before) (bindDefaults evaluate i parameters)
      (bindDefaults other i parameters) := by
  induction parameters generalizing i with
  | nil => exact .pure
  | cons q rest ih =>
    unfold bindDefaults
    split
    · exact .pure
    · rename_i start here
      have entry := Pattern.fallback_entry (within q (List.mem_cons_self ..)) here
      refine (code start entry).bind fun v => (agrees_setRegister i v).bind fun _ => ?_
      exact ih (i + 1) fun r member => within r (List.mem_cons_of_mem _ member)

theorem agrees_bindPositional (values : List Value) :
    Agrees env (Bare p below before) (bindPositional evaluate p values)
      (bindPositional other p values) := by
  have given : ∀ i parameters values, Agrees env (Bare p below before)
      (bindGiven i parameters values) (bindGiven i parameters values) := by
    intro i parameters values
    induction parameters generalizing i values with
    | nil => exact .pure
    | cons _ _ ih =>
      cases values with
      | nil => exact .pure
      | cons v values => exact (agrees_setRegister i v).bind fun _ => ih (i + 1) values
  have splat : ∀ pages, Agrees env (Bare p below before)
      (do setRegister p.splatRegister (← newBook pages); return true)
      (do setRegister p.splatRegister (← newBook pages); return true) := fun pages =>
    Agrees.bind (.orderly fun _ => orderly_newBook pages) fun rest =>
      (agrees_setRegister _ rest).bind fun _ => .pure
  refine (given _ _ _).bind fun _ => .ite (.ite (splat _) .pure) ?_
  refine Agrees.bind ?_ fun _ => .ite (.ite (splat _) .pure) .pure
  exact agrees_bindDefaults code _ _ fun q member =>
    List.mem_append_left _ (List.mem_of_mem_drop member)

theorem agrees_bindKeywordDefaults (filled : List Nat) (i : Nat) (parameters : List Parameter)
    (within : ∀ q ∈ parameters, q ∈ p.positional ++ p.keywords) :
    Agrees env (Bare p below before) (bindKeywordDefaults evaluate p filled i parameters)
      (bindKeywordDefaults other p filled i parameters) := by
  induction parameters generalizing i with
  | nil => exact .pure
  | cons q rest ih =>
    have later := ih (i + 1) fun r member => within r (List.mem_cons_of_mem _ member)
    refine .ite later ?_
    split
    · exact .pure
    · rename_i start here
      have entry := Pattern.fallback_entry (within q (List.mem_cons_self ..)) here
      exact (code start entry).bind fun v => (agrees_setRegister _ v).bind fun _ => later

variable (calls : env.Orderly)
include calls

theorem agrees_bindKeywords (keywords : List (String × Value)) :
    Agrees env (Bare p below before) (bindKeywords evaluate p keywords)
      (bindKeywords other p keywords) := by
  have given : ∀ filled extra, Agrees env (Bare p below before)
      (bindKeywordArguments p keywords filled extra)
      (bindKeywordArguments p keywords filled extra) := by
    induction keywords with
    | nil => exact fun _ _ => .pure
    | cons keyword rest ih =>
      intro filled extra
      unfold bindKeywordArguments
      split
      · exact (agrees_setRegister _ _).bind fun _ => ih _ _
      · exact .ite (ih _ _) .pure
  refine (given [] []).bind fun taken => ?_
  cases taken with
  | none => exact .pure
  | some taken =>
    refine Agrees.bind ?_ fun _ => .ite (.ite ?_ .pure) .pure
    · exact agrees_bindKeywordDefaults code _ _ _ fun q member => List.mem_append_right _ member
    · refine Agrees.bind (.orderly fun _ => .allocate _) fun _ =>
        (agrees_setRegister _ _).bind fun _ => ?_
      exact Agrees.bind (.orderly fun _ => orderly_collectKeywords calls ..) fun _ => .pure

theorem agrees_checkGuards (registerOf : Nat → Nat) (i : Nat) (parameters : List Parameter)
    (within : ∀ q ∈ parameters, q ∈ p.positional ++ p.keywords) :
    Agrees env (Bare p below before) (checkGuards evaluate registerOf i parameters)
      (checkGuards other registerOf i parameters) := by
  induction parameters generalizing i with
  | nil => exact .pure
  | cons q rest ih =>
    have later := ih (i + 1) fun r member => within r (List.mem_cons_of_mem _ member)
    unfold checkGuards
    split
    · exact later
    · rename_i start here
      have entry := Pattern.guard_entry (within q (List.mem_cons_self ..)) here
      refine (code start entry).bind fun guard => (agrees_register _).bind fun v => ?_
      refine Agrees.bind (.orderly fun _ => .withPinned (orderly_fits calls guard v)) fun _ => ?_
      exact .ite later .pure

theorem agrees_checkCondition :
    Agrees env (Bare p below before) (checkCondition evaluate p) (checkCondition other p) := by
  unfold checkCondition
  split
  · exact .pure
  · rename_i start here
    exact (code start (Pattern.condition_entry here)).bind fun v =>
      .orderly fun _ => orderly_toVeracity calls v

/-- Binding does the same with other sub-programs if these do the same. -/
theorem agrees_bindArguments (args : Arguments) :
    Agrees env (Bare p below before) (bindArguments evaluate p args) (bindArguments other p args) :=
  (agrees_bindPositional code _).bind fun _ => .ite .pure <|
    (agrees_bindKeywords code calls _).bind fun _ => .ite .pure <|
      (agrees_checkGuards code calls _ _ _ fun _ => List.mem_append_left _).bind fun _ =>
        .ite .pure <|
          (agrees_checkGuards code calls _ _ _ fun _ => List.mem_append_right _).bind fun _ =>
            .ite .pure <| agrees_checkCondition code calls

end Binding

section Body

theorem Comes.moves (calls : env.Orderly) (comes : Comes env m m') : Moves 1 m m' := by
  induction comes with
  | here => exact .refl
  | further _ last ih => exact ih.trans ((orderly_round calls).moves last)

/-- A frame whose code starts without handlers resumes at handlers that its code has installed. -/
theorem resumes_own (calls : env.Orderly) {top : Frame} (frames : m.frames = top :: below)
    (fresh : ∀ record ∈ m.handlers.records, record.frame < below.length)
    {start : Nat} {m₁ m₂ m₃ : Machine} (jumped : jump start env m = .ok () m₁)
    (comes : Comes env m₁ m₂) (thrown : (fetch >>= fun _ => step) env m₂ = .error .thrown m₃)
    (resumed : resume env m₃ = .ok () m') : ∃ newest own older,
      m₃.handlers.records = newest :: own ++ older ∧ m'.handlers.records = own ++ older ∧
      older <:+ m.handlers.records ∧ ∀ record ∈ newest :: own, record.frame = below.length := by
  have before : Moves 1 m m₂ := ((orderly_jump start).moves jumped).trans (comes.moves calls)
  obtain ⟨f, left, _⟩ := before.top frames
  obtain ⟨moves, -, now, there⟩ := thrown_arrives calls left thrown
  have reworked := (before.trans moves).records
  rw [frames, List.length_cons] at reworked
  obtain ⟨own, older, split, kept, mine⟩ := reworked.split
  obtain ⟨newest, rest, records, frame, after, -⟩ := resume_eq_ok there resumed
  cases own with
  | nil =>
    have member : newest ∈ older := by
      rw [← List.nil_append older, ← split, records]
      exact List.mem_cons_self
    have shallow := fresh newest (kept.subset member)
    omega
  | cons first own =>
    cases records.symm.trans split
    exact ⟨newest, own, older, split, after, kept, mine⟩

end Body

end Run

section Checking

variable {p : Pattern} {levels : List (Nat × Nat)}

def Codeblock.returnsAt (block : Codeblock) (ip : Nat) : Bool :=
  match block.word ip with
  | .ok w => Opcode.ofWord? w = some .ret
  | .error _ => true

/-- Whether sub-programs close their regions if the levels of positions are those of a table. -/
def Pattern.closesBy (p : Pattern) (levels : List (Nat × Nat)) : Bool :=
  (p.subPrograms.all fun start => levels.lookup start = some 0) && levels.all fun (ip, n) =>
    (n = 0 || !p.block.returnsAt ip) && match p.block.instructionAt ip with
      | .ok i => (i.operation ≠ .opcode .popTryCatch || 0 < n) &&
          (i.leads n).all fun next => levels.lookup next.1 = some next.2
      | .error _ => true

theorem Codeblock.Returns.at {block : Codeblock} {ip : Nat} (returns : block.Returns ip) :
    block.returnsAt ip = true := by
  unfold returnsAt
  rcases returns with ended | ⟨w, word, ret⟩
  · have missing : block.word ip = .error (.malformed (.streamEnds ip)) := by
      rw [word, Array.getElem?_eq_none ended]
    rw [missing]
  · simp [word, ret]

theorem Pattern.closes_of_closesBy (checked : p.closesBy levels = true) :
    p.Levels (levels.lookup ·) ∧ p.Closes (levels.lookup ·) := by
  simp only [closesBy, Bool.and_eq_true, List.all_eq_true, decide_eq_true_eq] at checked
  obtain ⟨starts, positions⟩ := checked
  have listed : ∀ ip n, levels.lookup ip = some n → (ip, n) ∈ levels := by
    intro ip n place
    obtain ⟨before, rest, rfl, _⟩ := List.lookup_eq_some_iff.mp place
    simp
  refine ⟨⟨fun ip n i place decoded => ?_, starts⟩, fun ip n returns place => ?_⟩
  · have checked := (positions _ (listed ip n place)).2
    simp only [decoded, Bool.and_eq_true, Bool.or_eq_true, decide_eq_true_eq, List.all_eq_true]
      at checked
    exact ⟨fun closes => checked.1.resolve_left (fun other => other closes), checked.2⟩
  · have checked := (positions _ (listed ip n place)).1
    simpa [returns.at] using checked

end Checking

namespace Machine

open Run

/-- Sub-programs that close their regions leave no handler. Code in which a level can be told for
every position that the sub-programs of a pattern come to leaves, where a sub-program returns, at
most as many handlers of the frame as regions are open there, and exactly as many above those that
were there before if nothing that it called removed any. So where all of them return outside their
regions, each return that binding meets gives back the handlers that the sub-program started with:
it makes no difference what is done after one that does not. And a throw of the body that is resumed
then is resumed at a handler that the body installed, with those before binding below. -/
theorem subprograms_settle (depth : Nat) {m : Machine} {p : Pattern} {level : Nat → Option Nat}
    (levels : p.Levels level)
    (live : ∀ record ∈ m.handlers.records, record.frame < m.frames.length) :
    (∀ top start v m₁ m₂, m₁.frames = top :: m.frames → top.pattern = p →
      m₁.handlers.records <:+ m.handlers.records → start ∈ p.subPrograms →
      evaluate start (calling depth) m₁ = .ok v m₂ →
      ∃ ip n, p.block.Returns ip ∧ level ip = some n ∧
        Guards level m.frames.length m₁.handlers.records (Undisturbed (calling depth) start m₁) n
          m₂.handlers.records) ∧
    (p.Closes level → ∀ h args,
      (∀ otherwise, bindArguments (watched otherwise) p args (calling depth) (m.enter h p) =
        bindArguments evaluate p args (calling depth) (m.enter h p)) ∧
      ∀ b entry, bindArguments evaluate p args (calling depth) (m.enter h p) = .ok b entry →
        entry.handlers.records <:+ m.handlers.records ∧
        ∀ m₁ m₂ m₃ m₄, jump p.start (calling depth) entry = .ok () m₁ →
          Comes (calling depth) m₁ m₂ →
          (fetch >>= fun _ => step) (calling depth) m₂ = .error .thrown m₃ →
          resume (calling depth) m₃ = .ok () m₄ →
          ∃ newest own older, m₃.handlers.records = newest :: own ++ older ∧
            m₄.handlers.records = own ++ older ∧ older <:+ entry.handlers.records ∧
            ∀ record ∈ newest :: own, record.frame = m.frames.length) := by
  have calls : (calling depth).Orderly := callAt_orderly depth depth
  constructor
  · rintro top start v m₁ m₂ frames rfl kept entry done
    exact evaluate_guards calls levels.nests frames rfl
      (fun record member => live record (kept.subset member)) (levels.starts start entry) done _ id
  · intro closes h args
    have bare : Bare p m.frames m.handlers.records (m.enter h p) :=
      ⟨_, rfl, rfl, List.suffix_refl _⟩
    have agrees := fun otherwise => agrees_bindArguments
      (fun start entry => agrees_evaluate calls levels closes live entry otherwise) calls args _ bare
    constructor
    · exact fun otherwise => (agrees otherwise).1
    · intro b entry bound
      obtain ⟨top, frames, -, kept⟩ := (agrees (fail .tooDeep)).2 b entry bound
      refine ⟨kept, fun m₁ m₂ m₃ m₄ jumped comes thrown resumed => ?_⟩
      exact resumes_own calls frames (fun record member => live record (kept.subset member)) jumped
        comes thrown resumed

def roomy : Machine := { bare [] with handlers := { limit := 9 }, budget := 50 }

def further? (m : Machine) : Nat → Option Machine
  | 0 => some m
  | n + 1 => (further? m n).bind fun m' =>
    match round (calling 9) m' with
    | .ok .next m'' => some m''
    | _ => none

/-- Binds a pattern that is called without arguments, and runs so many rounds of its body up to a
throw that is resumed: what each of the three leaves. -/
def caught? (p : Pattern) (rounds : Nat) : Option (Machine × Machine × Machine) :=
  match bindArguments evaluate p {} (calling 9) (roomy.enter ⟨0⟩ p) with
  | .ok true entry =>
    match jump p.start (calling 9) entry with
    | .ok () begun => (further? begun rounds).bind fun m =>
      match (fetch >>= fun _ => step) (calling 9) m with
      | .error .thrown thrown =>
        match resume (calling 9) thrown with
        | .ok () resumed => some (entry, thrown, resumed)
        | _ => none
      | _ => none
    | _ => none
  | _ => none

theorem comes_of_further? {m m' : Machine} {n : Nat} (left : further? m n = some m') :
    Comes (calling 9) m m' := by
  induction n generalizing m' with
  | zero =>
    cases left
    exact .here
  | succ n ih =>
    obtain ⟨m₁, before, last⟩ := Option.bind_eq_some_iff.mp left
    split at last
    · rename_i m₂ went
      cases last
      exact (ih before).further went
    · cases last

theorem caught?_eq_some {p : Pattern} {rounds : Nat} {entry thrown resumed : Machine}
    (caught : caught? p rounds = some (entry, thrown, resumed)) :
    bindArguments evaluate p {} (calling 9) (roomy.enter ⟨0⟩ p) = .ok true entry ∧
    ∃ m₁ m₂, jump p.start (calling 9) entry = .ok () m₁ ∧ Comes (calling 9) m₁ m₂ ∧
      (fetch >>= fun _ => step) (calling 9) m₂ = .error .thrown thrown ∧
      resume (calling 9) thrown = .ok () resumed := by
  unfold caught? at caught
  split at caught
  · rename_i entered bound
    split at caught
    · rename_i begun jumped
      obtain ⟨m₂, left, rest⟩ := Option.bind_eq_some_iff.mp caught
      split at rest
      · rename_i thrown' raised
        split at rest
        · rename_i resumed' again
          cases rest
          exact ⟨bound, begun, m₂, jumped, comes_of_further? left, raised, again⟩
        · cases rest
      · cases rest
    · cases caught
  · cases caught

/-- A default that throws in a region of its own, a condition that leaves its region, and a body that
throws in one. -/
def tries : Pattern where
  positional := [{ name := "a", fallback := some 0 }]
  condition := some 10
  start := 19
  block :=
    { registers := 3
      constants := #[.numeral 7, .veracity true]
      code := #[
        Opcode.tryCatch.word, 8, 1, Opcode.cload.word, 0, 2, Opcode.throw.word, 2,
        Opcode.ret.word, 1,
        Opcode.tryCatch.word, 17, 1, Opcode.popTryCatch.word, Opcode.cload.word, 1, 2,
        Opcode.ret.word, 2,
        Opcode.tryCatch.word, 27, 1, Opcode.cload.word, 0, 2, Opcode.throw.word, 2,
        Opcode.ret.word, 1] }

theorem tries_closes : ∃ level, tries.Levels level ∧ tries.Closes level := by
  have checked : tries.closesBy
      [(0, 0), (3, 1), (6, 1), (8, 0), (10, 0), (13, 1), (14, 0), (17, 0)] = true := by decide +kernel
  exact ⟨_, Pattern.closes_of_closesBy checked⟩

theorem tries_caught : ∃ entry thrown resumed, caught? tries 2 = some (entry, thrown, resumed) := by
  obtain ⟨⟨entry, thrown, resumed⟩, caught⟩ :=
    Option.isSome_iff_exists.mp (show (caught? tries 2).isSome = true by decide +kernel)
  exact ⟨entry, thrown, resumed, caught⟩

/-- The throw of the body is resumed at the handler of the body. -/
theorem tries_settle : ∃ entry thrown resumed newest,
    bindArguments evaluate tries {} (calling 9) (roomy.enter ⟨0⟩ tries) = .ok true entry ∧
    entry.handlers.records = [] ∧ resume (calling 9) thrown = .ok () resumed ∧
    newest ∈ thrown.handlers.records ∧ newest ∉ entry.handlers.records := by
  obtain ⟨level, levels, closes⟩ := tries_closes
  obtain ⟨entry, thrown, resumed, caught⟩ := tries_caught
  obtain ⟨bound, m₁, m₂, jumped, comes, raised, again⟩ := caught?_eq_some caught
  have settle := (subprograms_settle 9 (m := roomy) levels (by simp [roomy])).2 closes ⟨0⟩ {}
  obtain ⟨kept, own⟩ := settle.2 true entry bound
  obtain ⟨newest, own, older, records, _, _, _⟩ := own m₁ m₂ thrown resumed jumped comes raised again
  have none : entry.handlers.records = [] := List.suffix_nil.mp kept
  refine ⟨entry, thrown, resumed, newest, bound, none, again, ?_, ?_⟩
  · rw [records]
    exact List.mem_cons_self
  · simp [none]

/-- A default that returns in a region, and a body that throws outside all regions. -/
def leaky : Pattern where
  positional := [{ name := "a", fallback := some 0 }]
  start := 5
  block :=
    { registers := 3
      constants := #[.numeral 7]
      code := #[
        Opcode.tryCatch.word, 10, 1, Opcode.ret.word, 0,
        Opcode.cload.word, 0, 2, Opcode.throw.word, 2,
        Opcode.ret.word, 1] }

/-- A sub-program need not leave the handlers as they were, and a body need not resume at handlers of
its own: here the only one there is when it throws was there when binding was done. -/
theorem leaky_resumes : ∃ v left entry begun reached thrown resumed record,
    0 ∈ leaky.subPrograms ∧ evaluate 0 (calling 9) (roomy.enter ⟨0⟩ leaky) = .ok v left ∧
    left.handlers.records ≠ roomy.handlers.records ∧
    bindArguments evaluate leaky {} (calling 9) (roomy.enter ⟨0⟩ leaky) = .ok true entry ∧
    entry.handlers.records = [record] ∧
    jump leaky.start (calling 9) entry = .ok () begun ∧ Comes (calling 9) begun reached ∧
    (fetch >>= fun _ => step) (calling 9) reached = .error .thrown thrown ∧
    thrown.handlers.records = [record] ∧
    resume (calling 9) thrown = .ok () resumed ∧ resumed.handlers.records = [] := by
  have returns : (match evaluate 0 (calling 9) (roomy.enter ⟨0⟩ leaky) with
      | .ok _ left => decide (left.handlers.records ≠ roomy.handlers.records)
      | _ => false) = true := by decide +kernel
  have resumes : (caught? leaky 1).any (fun (entry, thrown, resumed) =>
      entry.handlers.records = [⟨0, 10, 1⟩] && thrown.handlers.records = [⟨0, 10, 1⟩] &&
        resumed.handlers.records = []) = true := by decide +kernel
  split at returns
  · rename_i v left ran
    obtain ⟨⟨entry, thrown, resumed⟩, caught, records⟩ := (Option.any_eq_true ..).mp resumes
    simp only [Bool.and_eq_true, decide_eq_true_eq] at records
    obtain ⟨bound, begun, reached, jumped, comes, raised, again⟩ := caught?_eq_some caught
    exact ⟨v, left, entry, begun, reached, thrown, resumed, ⟨0, 10, 1⟩, by decide, ran,
      of_decide_eq_true returns, bound, records.1.1, jumped, comes, raised, records.1.2, again,
      records.2⟩
  · cases returns

end Machine

end JourneyMachine
