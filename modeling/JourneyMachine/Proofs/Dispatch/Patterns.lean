import JourneyMachine.Proofs.Dispatch.Registers

namespace JourneyMachine

open Machine (Binding Moves Within)
open Dispatch

namespace Run

variable {env : Env} {m m' entry : Machine} {h : Handle} {p : Pattern} {name : String}
  {args : Arguments} {rest : List Pattern}

section Attempts

/-- What is done in the frame of a pattern. -/
def attempt (p : Pattern) (args : Arguments) : Run (Option Value) := do
  if ← bindArguments evaluate p args then return some (← evaluate p.start)
  else return none

theorem tryPatterns_cons : tryPatterns evaluate h name args (p :: rest) =
    (withFrame h p (attempt p args) >>= fun
      | some v => return v
      | none => tryPatterns evaluate h name args rest) := rfl

theorem tryPatterns_applied
    (bound : bindArguments evaluate p args env (m.enter h p) = .ok true entry) :
    tryPatterns evaluate h name args (p :: rest) env m =
      leaving m.frames.length (evaluate p.start env entry) := by
  have attempted : withFrame h p (attempt p args) env m = leaving m.frames.length
      ((evaluate p.start >>= fun v => return some v) env entry) := by
    rw [withFrame_eq, attempt, bind_ok bound]
    rfl
  rw [tryPatterns_cons]
  cases ran : evaluate p.start env entry with
  | ok v m₁ =>
    rw [bind_ok ran] at attempted
    rw [bind_ok attempted]
    rfl
  | error unwind m₁ =>
    rw [bind_error ran] at attempted
    cases unwind <;> exact bind_error attempted

theorem tryPatterns_refused
    (bound : bindArguments evaluate p args env (m.enter h p) = .ok false m') :
    tryPatterns evaluate h name args (p :: rest) env m =
      tryPatterns evaluate h name args rest env (m'.unwindTo m.frames.length) := by
  have attempted : withFrame h p (attempt p args) env m =
      .ok none (m'.unwindTo m.frames.length) := by
    rw [withFrame_eq, attempt, bind_ok bound]
    rfl
  exact bind_ok attempted

theorem tryPatterns_unwound {unwind : Unwind}
    (bound : bindArguments evaluate p args env (m.enter h p) = .error unwind m') :
    tryPatterns evaluate h name args (p :: rest) env m =
      leaving m.frames.length (.error unwind m') := by
  have attempted : withFrame h p (attempt p args) env m =
      leaving m.frames.length (.error unwind m') := by
    rw [withFrame_eq, attempt, bind_error bound]
  rw [tryPatterns_cons]
  cases unwind <;> exact bind_error attempted

end Attempts

/-- The patterns are tried as they should be, in any machine that the call has led to so far. -/
theorem tryPatterns_dispatched {m₀ : Machine} {j : Journey} (calls : env.Calls False)
    (orderly : env.Orderly) (used : m₀.heap.get? h = some (.journey j))
    (stays : ∀ m', Within False m₀ m' → m'.heap.Holds .journey h)
    (held : ∀ v ∈ args.values, v ∈ m₀.held) (patterns : List Pattern)
    (sub : ∀ p ∈ patterns, p ∈ j.patterns)
    (modest : ∀ p ∈ patterns, ∀ start ∈ p.subPrograms, Modest env p start)
    (within : Within False m₀ m) (ordered : m.Ordered) :
    Dispatched env h name args patterns m (tryPatterns evaluate h name args patterns env m) := by
  -- On the patterns: one that is refused may have run code, which stays within what the call may
  -- do.
  induction patterns generalizing m with
  | nil => exact .exhausted
  | cons p rest ih =>
    have here := within.evolves.journey used (stays m within)
    have member := sub p (List.mem_cons_self ..)
    have known := modest p (List.mem_cons_self ..)
    have heldHere : ∀ v ∈ args.values, v ∈ m.held := fun v inside =>
      within.held.symm ▸ held v inside
    have binding : Binding m h p (m.enter h p) := .entered within.closed ordered here member
    have succeeds : ∀ values entry, Applies env p args (m.enter h p) values entry →
        bindArguments evaluate p args env (m.enter h p) = .ok true entry :=
      fun values entry applies =>
        (bindArguments_iff calls binding heldHere known).mpr ⟨values, applies⟩
    cases bound : bindArguments evaluate p args env (m.enter h p) with
    | ok fits m' =>
      cases fits with
      | true =>
        obtain ⟨values, applies⟩ := (bindArguments_iff calls binding heldHere known).mp bound
        rw [tryPatterns_applied bound]
        exact .applied applies (applies.holds calls orderly known heldHere binding)
      | false =>
        have meets := meets_bindArguments calls (evaluates calls calls) p heldHere
          binding.active False.elim
        have ends : Orderly 1 env (bindArguments evaluate p args) (m.enter h p) :=
          orderly_bindArguments orderly (fun start _ => orderly_evaluate orderly start) p args
        rw [bound] at meets
        have left : Moves 0 m (m'.unwindTo m.frames.length) := (ends.moves bound).left
        rw [tryPatterns_refused bound]
        refine .refused bound (fun values entry applies => ?_)
          (ih (fun q inside => sub q (List.mem_cons_of_mem _ inside))
            (fun q inside => modest q (List.mem_cons_of_mem _ inside))
            (within.trans meets.1.left) (left.ordered ordered))
        cases bound.symm.trans (succeeds values entry applies)
    | error unwind m' =>
      rw [tryPatterns_unwound bound]
      refine .unwound bound fun values entry applies => ?_
      cases bound.symm.trans (succeeds values entry applies)

section Returning

variable {f : Frame} {below : List Frame} {w r : Word}

theorem nextWord_ok (frames : m.frames = f :: below)
    (code : f.pattern.block.code[f.ip]? = some w) : nextWord env m =
      .ok w { m with frames := { f with ip := f.ip + 1 } :: below } :=
  onFrame_ok frames (by simp only [Codeblock.word, code]; rfl)

/-- An instruction that returns a register moves the frame on and changes nothing else; it fails if
there is no such register. -/
theorem step_ret (env : Env) (frames : m.frames = f :: below)
    (code : f.pattern.block.code[f.ip]? = some Opcode.ret.word)
    (operand : f.pattern.block.code[f.ip + 1]? = some r) :
    (∃ v, step env m = .ok (.done v) { m with frames := { f with ip := f.ip + 2 } :: below }) ∨
      ∃ fault m', step env m = .error (.fatal fault) m' := by
  have inside : f.ip < f.pattern.block.code.size := (Array.getElem?_eq_some_iff.mp code).1
  have going : f.atEnd = false := decide_eq_false (Nat.not_le.mpr inside)
  have looked : onFrame (fun f => return ((f.ip, f.atEnd), f)) env m =
      .ok (f.ip, false) { m with frames := f :: below } :=
    onFrame_ok frames (by rw [going]; rfl)
  have known : Opcode.ofWord? Opcode.ret.word = some .ret := by decide +kernel
  have began : step env m = (do return Flow.done (← nextValue)) env
      { m with frames := { f with ip := f.ip + 1 } :: below } := by
    refine (bind_ok looked).trans ((bind_ok (nextWord_ok rfl code)).trans ?_)
    simp only [known, execute]
  have index : nextIndex env { m with frames := { f with ip := f.ip + 1 } :: below } =
      .ok r.toNat { m with frames := { f with ip := f.ip + 2 } :: below } :=
    (bind_ok (nextWord_ok rfl operand)).trans rfl
  rw [began]
  cases found : f.registers[r.toNat]? with
  | some v =>
    have read : register r.toNat env { m with frames := { f with ip := f.ip + 2 } :: below } =
        .ok v { m with frames := { f with ip := f.ip + 2 } :: below } :=
      (register_eq_ok).mpr ⟨by simpa [Machine.slot?] using found, rfl⟩
    exact .inl ⟨v, bind_ok ((bind_ok index).trans read)⟩
  | none =>
    have missing : register r.toNat env { m with frames := { f with ip := f.ip + 2 } :: below } =
        .error (.fatal (.malformed (.registerRange r.toNat))) _ :=
      onFrame_error rfl (by simp only [Frame.register, found]; rfl)
    exact .inr ⟨_, _, bind_error ((bind_ok index).trans missing)⟩

/-- A sub-program that returns a register at once changes nothing that is bound. -/
theorem modest_ret {start : Nat} (code : p.block.code[start]? = some Opcode.ret.word)
    (operand : p.block.code[start + 1]? = some r) : Modest env p start := by
  rintro m f below v m' frames rfl bare done
  obtain ⟨_, m₁, jumped, looped⟩ := (bind_eq_ok).mp done
  have inside : start ≤ f.codeSize := (Array.getElem?_eq_some_iff.mp code).1.le
  cases jumped.symm.trans (jump_ok frames inside)
  replace looped : loop (m.budget + 1) env { m with frames := { f with ip := start } :: below } =
    .ok v m' := looped
  -- The first round returns, unless there is no budget for it or no such register.
  cases budget : m.budget with
  | zero =>
    have halted : fetch env { m with frames := { f with ip := start } :: below } =
        .error .halted { m with frames := { f with ip := start } :: below } := by
      simp only [fetch, budget]
    simp only [loop, bind_error halted] at looped
    cases looped
  | succ left =>
    have fetched : fetch env { m with frames := { f with ip := start } :: below } =
        .ok () { m with frames := { f with ip := start } :: below, budget := left } := by
      simp only [fetch, budget]
    have stepped := step_ret (m := { m with
      frames := { f with ip := start } :: below, budget := left }) env rfl code operand
    rcases stepped with ⟨w, returned⟩ | ⟨fault, m₂, failed⟩
    · simp only [loop, bind_ok fetched, returned] at looped
      cases looped
      exact ⟨bare, fun i _ => by simp [Machine.slot?, frames]⟩
    · simp only [loop, bind_ok fetched, failed] at looped
      cases looped

end Returning

end Run

namespace Machine

variable {m : Machine} {h : Handle} {args : Arguments} {j : Journey}

/-- While a call is under way, the journey that is called stays. -/
theorem Poised.stays (poised : m.Poised h args) :
    ∀ m', Within False m m' → m'.heap.Holds .journey h := by
  intro m' within
  rcases poised.callee with held | ⟨k, f, held, used, constructed⟩
  · exact (Heap.refers_journey).mp (within.refers held)
  · exact within.evolves.constructor within.closed.heap used constructed
      ((Heap.refers_form).mp (within.refers held))

/-- A call pins what it calls and the arguments. -/
theorem Poised.pinned (closed : m.Closed) (ordered : m.Ordered)
    (refer : ∀ v ∈ .journey h :: args.values, m.heap.Refers v)
    (room : m.frameDepth < m.settings.maxFrames) :
    (m.pin (.journey h :: args.values)).Poised h args where
  closed := closed.pin refer
  ordered := ⟨ordered.sorted, ordered.live⟩
  callee := .inl (held_pinned (List.mem_cons_self ..))
  held _ member := held_pinned (List.mem_cons_of_mem _ member)
  room := room

/-- A call of a journey runs the body of the first pattern in declaration order that applies, in a
machine whose registers hold what the parameters were bound to, and no other. It throws if none
applies, and it ends as a sub-program does that does not return. -/
theorem calls_dispatch (poised : m.Poised h args) (there : m.heap.get? h = some (.journey j))
    (depth : Nat)
    (modest : ∀ p ∈ j.patterns, ∀ start ∈ p.subPrograms, Modest (calling depth) p start) :
    Dispatched (calling depth) h j.name args j.patterns m
      (Run.callJourney Run.evaluate h args (calling depth) m) := by
  have read : Run.journey h (calling depth) m = .ok j m := Run.read_journey there
  have tried : Run.callJourney Run.evaluate h args (calling depth) m =
      Run.tryPatterns Run.evaluate h j.name args j.patterns (calling depth) m := by
    refine (Run.bind_ok read).trans ((Run.bind_ok (a := m) rfl).trans ?_)
    rw [if_neg (Nat.not_le.mpr poised.room)]
  rw [tried]
  exact Run.tryPatterns_dispatched (callAt_calls False _ _) (callAt_orderly _ _) there poised.stays
    poised.held j.patterns (fun _ member => member) modest (.refl poised.closed) poised.ordered

/-- The pattern of the journey that lends its surplus arguments: the default of `k` is their book,
and what `k` is matched against is the argument. -/
def lend : Pattern where
  positional := [{ name := "g" }]
  splat := true
  keywords := [{ name := "k", fallback := some 6, guard := some 8 }]
  block := { registers := 4, code := #[Opcode.int.word, Interrupt.length.word, 1, 3,
    Opcode.ret.word, 3, Opcode.ret.word, 1, Opcode.ret.word, 0] }

/-- The entry lends surplus arguments, of which there are none, to a journey that inserts a page. -/
def lending : Image where
  journeys := [
    { name := "main"
      patterns := [{ block := { registers := 3, constants := [.journey 1, .journey 2], code := [
        Opcode.cload.word, 0, 0, Opcode.cload.word, 1, 1, Opcode.call.word, 0, 1, 1, 2,
        Opcode.ret.word, 2] } }] },
    { name := "lend"
      patterns := [{
        positional := [{ name := "g" }]
        splat := true
        keywords := [{ name := "k", fallback := some 6, guard := some 8 }]
        block := { registers := 4, code := lend.block.code.toList } }] },
    { name := "edit"
      patterns := [{
        positional := [{ name := "book" }]
        block := { registers := 3, constants := [.numeral 1], code := [
          Opcode.cload.word, 0, 1, Opcode.int.word, Interrupt.arrayInsert.word, 0, 1, 1, 2,
          Opcode.ret.word, 1] } }] }]
  main := some 0

theorem modest_lend (env : Env) : ∀ start ∈ lend.subPrograms, Modest env lend start := by
  intro start member
  have either : start = 6 ∨ start = 8 := by simpa [lend, Pattern.subPrograms] using member
  rcases either with rfl | rfl
  · exact Run.modest_ret (r := 1) rfl rfl
  · exact Run.modest_ret (r := 0) rfl rfl

theorem Loads.ordered {settings : Settings} {world : Host.World} {image : Image} {m : Machine}
    (loads : Loads settings world image m) (budget : Nat) : (m.withBudget budget).Ordered := by
  have records : (m.withBudget budget).handlers.records = [] :=
    congrArg (·.2.1.records) loads.standing
  constructor
  · simp [records]
  · simp [records]

def editor : Arguments := { positional := [.journey ⟨6⟩] }

/-- The journey that lends is called with the one that edits, returns the number of its surplus
arguments as its guard left them, and its body finds a page in the book. -/
def lendsPage (m : Machine) : Bool :=
  let called := (m.withBudget 20).pin (.journey ⟨5⟩ :: editor.values)
  (match m.heap.get? ⟨5⟩, m.heap.get? ⟨6⟩ with
    | some (.journey j), some (.journey _) => j = ⟨"lend", [lend]⟩
    | _, _ => false) &&
  (match Run.callJourney Run.evaluate ⟨5⟩ editor (calling 9) called with
    | .ok v _ => v = .numeral 1
    | _ => false) &&
  match Run.bindArguments Run.evaluate lend editor (calling 9) (called.enter ⟨5⟩ lend) with
  | .ok true entry =>
    match entry.slot? 1 with
    | some (.book k) =>
      match entry.heap.get? k with
      | some (.book pages) => pages.size = 1
      | _ => false
    | _ => false
  | _ => false

theorem lending_calls : ∃ m : Machine, m.Poised ⟨5⟩ editor ∧
    m.heap.get? ⟨5⟩ = some (.journey ⟨"lend", [lend]⟩) ∧
    (∃ m', Run.callJourney Run.evaluate ⟨5⟩ editor (calling 9) m = .ok (.numeral 1) m') ∧
    ∃ entry k pages, Run.bindArguments Run.evaluate lend editor (calling 9) (m.enter ⟨5⟩ lend) =
      .ok true entry ∧ entry.slot? 1 = some (.book k) ∧ entry.heap.get? k = some (.book pages) ∧
      pages.size = 1 := by
  obtain ⟨m, loads, checked⟩ := loads_of { heapSlots := 16 } {} lending lendsPage
    (by decide +kernel)
  simp only [lendsPage, Bool.and_eq_true] at checked
  obtain ⟨⟨first, second⟩, third⟩ := checked
  split at first
  · rename_i j other found edit
    cases of_decide_eq_true first
    have closed : (m.withBudget 20).Closed := (loads.started False 20).closed
    have frames : (m.withBudget 20).frames = [] := congrArg (·.1) loads.standing
    have settings : (m.withBudget 20).settings = _ := congrArg (·.2.2) loads.standing
    have refer : ∀ v ∈ .journey ⟨5⟩ :: editor.values, (m.withBudget 20).heap.Refers v := by
      have named : ∀ v ∈ .journey ⟨5⟩ :: editor.values, v = .journey ⟨5⟩ ∨ v = .journey ⟨6⟩ := by
        simp [editor, Arguments.values]
      intro v member
      rcases named v member with rfl | rfl
      · exact (Heap.refers_journey).mpr ⟨_, found, rfl⟩
      · exact (Heap.refers_journey).mpr ⟨_, edit, rfl⟩
    have room : (m.withBudget 20).frameDepth < (m.withBudget 20).settings.maxFrames := by
      rw [frameDepth, frames, settings]
      decide
    refine ⟨_, .pinned closed (loads.ordered 20) refer room, found, ?_, ?_⟩
    · split at second
      · rename_i v m' called
        cases of_decide_eq_true second
        exact ⟨m', called⟩
      · contradiction
    · split at third
      · rename_i entry bound
        split at third
        · rename_i k slot
          split at third
          · rename_i pages content
            exact ⟨entry, k, pages, bound, slot, content, of_decide_eq_true third⟩
          · contradiction
        · contradiction
      · contradiction
  · contradiction

/-- The journey that lends its surplus arguments is called as it should be. -/
theorem lending_dispatches : ∃ m : Machine, m.Poised ⟨5⟩ editor ∧
    Dispatched (calling 9) ⟨5⟩ "lend" editor [lend] m
      (Run.callJourney Run.evaluate ⟨5⟩ editor (calling 9) m) ∧
    ∃ m', Run.callJourney Run.evaluate ⟨5⟩ editor (calling 9) m = .ok (.numeral 1) m' := by
  obtain ⟨m, poised, there, returns, _⟩ := lending_calls
  refine ⟨m, poised, calls_dispatch poised there 9 fun p member => ?_, returns⟩
  rw [List.mem_singleton.mp member]
  exact modest_lend (calling 9)

/-- A body need not find the surplus arguments in the book, not even if no sub-program writes a
register that is bound or leaves a handler: here the book has a page although there are none. -/
theorem lending_edits : ¬ ∀ (m : Machine) (h : Handle) (args : Arguments) (j : Journey)
    (depth : Nat), m.Poised h args → m.heap.get? h = some (.journey j) →
    (∀ p ∈ j.patterns, ∀ start ∈ p.subPrograms, Modest (calling depth) p start) →
    ∀ p ∈ j.patterns, ∀ bound entry, Applies (calling depth) p args (m.enter h p) bound entry →
      p.splat = true → ∃ k, entry.slot? p.splatRegister = some (.book k) ∧
        entry.heap.get? k = some (.book (p.surplus args.positional).toArray) := by
  intro claimed
  obtain ⟨m, poised, there, _, entry, k, pages, bound, slot, content, one⟩ := lending_calls
  have binding : Binding m ⟨5⟩ lend (m.enter ⟨5⟩ lend) :=
    .entered poised.closed poised.ordered there (List.mem_singleton_self lend)
  obtain ⟨values, applies⟩ := (Run.bindArguments_iff (callAt_calls False 9 9) binding poised.held
    (modest_lend _)).mp bound
  obtain ⟨k', there', surplus⟩ := claimed m ⟨5⟩ editor _ 9 poised there (fun p member => by
    rw [List.mem_singleton.mp member]
    exact modest_lend (calling 9)) lend (List.mem_singleton_self lend) values entry applies rfl
  have same : some (Value.book k') = some (.book k) := there'.symm.trans slot
  cases same
  cases surplus.symm.trans content
  contradiction

end Machine

end JourneyMachine
