import JourneyMachine.Code.Instruction
import JourneyMachine.Proofs.Dispatch.Patterns

/-! Operands as the decoder lays them out and as the machine takes them. The decoder reads a list of
kinds from a position; the machine takes words off the frame on top, one helper after the other,
between computations that call values. `Run.Takes` compares the two: whenever a computation
succeeds, the decoder can read operands of these kinds where the frame stood, and the frame then
stands where the decoder ends. -/

namespace JourneyMachine

namespace Codeblock

variable {block : Codeblock} {kinds more : List OperandKind} {kind : OperandKind}
  {ip next last : Nat} {w : Word}

section Faults

theorem sincere_wordsAt (count : Nat) : Sincere (block.wordsAt count ip) := by
  induction count generalizing ip with
  | zero => exact ⟨trivial⟩
  | succ count ih => exact (sincere_word).bind fun _ => ih.bind fun _ => ⟨trivial⟩

theorem sincere_pairsAt (count : Nat) : Sincere (block.pairsAt count ip) := by
  induction count generalizing ip with
  | zero => exact ⟨trivial⟩
  | succ count ih =>
    exact (sincere_word).bind fun _ => (sincere_word).bind fun _ => ih.bind fun _ => ⟨trivial⟩

theorem sincere_keywordsAt (count : Nat) : Sincere (block.keywordsAt count ip) := by
  induction count generalizing ip with
  | zero => exact ⟨trivial⟩
  | succ count ih =>
    exact (sincere_word).bind fun _ => (sincere_constant).bind fun _ => (sincere_word).bind fun _ =>
      ih.bind fun _ => ⟨trivial⟩

theorem sincere_operandAt : Sincere (block.operandAt kind ip) := by
  refine (sincere_word).bind fun w => ?_
  cases kind with
  | constant => exact (sincere_constant).bind fun _ => ⟨trivial⟩
  | registers => exact (sincere_wordsAt _).bind fun _ => ⟨trivial⟩
  | pairs => exact (sincere_pairsAt _).bind fun _ => ⟨trivial⟩
  | keywords => exact (sincere_keywordsAt _).bind fun _ => ⟨trivial⟩
  | _ => exact ⟨trivial⟩

/-- Only what an instruction does can be unknown, never an operand of it. -/
theorem sincere_operandsAt : Sincere (block.operandsAt kinds ip) := by
  induction kinds generalizing ip with
  | nil => exact ⟨trivial⟩
  | cons kind kinds ih => exact (sincere_operandAt).bind fun _ => ih.bind fun _ => ⟨trivial⟩

end Faults

section Layout

/-- A successful chain of reads. -/
theorem bind_ok {α β : Type} {x : Except Fault α} {k : α → Except Fault β} {b : β} :
    (x >>= k) = .ok b ↔ ∃ a, x = .ok a ∧ k a = .ok b := by
  cases x <;> simp [Bind.bind, Except.bind]

theorem operandsAt_append {xs ys : List Operand} (one : block.operandsAt kinds ip = .ok (xs, next))
    (two : block.operandsAt more next = .ok (ys, last)) :
    block.operandsAt (kinds ++ more) ip = .ok (xs ++ ys, last) := by
  induction kinds generalizing ip xs with
  | nil =>
    cases one
    exact two
  | cons kind kinds ih =>
    obtain ⟨⟨x, mid⟩, read, rest⟩ := (bind_ok).mp one
    obtain ⟨⟨zs, stop⟩, later, same⟩ := (bind_ok).mp rest
    cases same
    exact (bind_ok).mpr ⟨(x, mid), read, (bind_ok).mpr ⟨(zs ++ ys, last), ih later, rfl⟩⟩

theorem operandsAt_single {x : Operand} (one : block.operandAt kind ip = .ok (x, next)) :
    block.operandsAt [kind] ip = .ok ([x], next) :=
  (bind_ok).mpr ⟨(x, next), one, rfl⟩

theorem wordsAt_next {count : Nat} {words : List Word}
    (read : block.wordsAt count ip = .ok (words, next)) : ip ≤ next := by
  induction count generalizing ip words with
  | zero => cases read; exact Nat.le_refl _
  | succ count ih =>
    obtain ⟨w, _, rest⟩ := (bind_ok).mp read
    obtain ⟨⟨ws, stop⟩, later, same⟩ := (bind_ok).mp rest
    cases same
    have := ih later
    omega

theorem pairsAt_next {count : Nat} {entries : List (Word × Word)}
    (read : block.pairsAt count ip = .ok (entries, next)) : ip ≤ next := by
  induction count generalizing ip entries with
  | zero => cases read; exact Nat.le_refl _
  | succ count ih =>
    obtain ⟨k, _, rest⟩ := (bind_ok).mp read
    obtain ⟨v, _, rest⟩ := (bind_ok).mp rest
    obtain ⟨⟨others, stop⟩, later, same⟩ := (bind_ok).mp rest
    cases same
    have := ih later
    omega

theorem keywordsAt_next {count : Nat} {entries : List ((Word × Value) × Word)}
    (read : block.keywordsAt count ip = .ok (entries, next)) : ip ≤ next := by
  induction count generalizing ip entries with
  | zero => cases read; exact Nat.le_refl _
  | succ count ih =>
    obtain ⟨name, _, rest⟩ := (bind_ok).mp read
    obtain ⟨value, _, rest⟩ := (bind_ok).mp rest
    obtain ⟨register, _, rest⟩ := (bind_ok).mp rest
    obtain ⟨⟨others, stop⟩, later, same⟩ := (bind_ok).mp rest
    cases same
    have := ih later
    omega

theorem operandAt_next {x : Operand} (read : block.operandAt kind ip = .ok (x, next)) :
    ip < next := by
  obtain ⟨w, _, rest⟩ := (bind_ok).mp read
  cases kind with
  | register | position | global | field => cases rest; exact Nat.lt_succ_self ip
  | constant =>
    obtain ⟨v, _, same⟩ := (bind_ok).mp rest
    cases same
    exact Nat.lt_succ_self ip
  | registers =>
    obtain ⟨⟨words, stop⟩, words_read, same⟩ := (bind_ok).mp rest
    cases same
    exact wordsAt_next words_read
  | pairs =>
    obtain ⟨⟨entries, stop⟩, entries_read, same⟩ := (bind_ok).mp rest
    cases same
    exact pairsAt_next entries_read
  | keywords =>
    obtain ⟨⟨entries, stop⟩, entries_read, same⟩ := (bind_ok).mp rest
    cases same
    exact keywordsAt_next entries_read

theorem operandsAt_next {xs : List Operand} (read : block.operandsAt kinds ip = .ok (xs, next)) :
    ip ≤ next := by
  induction kinds generalizing ip xs with
  | nil => cases read; exact Nat.le_refl _
  | cons kind kinds ih =>
    obtain ⟨⟨x, mid⟩, first, rest⟩ := (bind_ok).mp read
    obtain ⟨⟨others, stop⟩, later, same⟩ := (bind_ok).mp rest
    cases same
    exact (operandAt_next first).le.trans (ih later)

end Layout

end Codeblock

/-- Operands that are one word by which nothing is looked up. -/
inductive OperandKind.IsWord : OperandKind → Prop
  | register : IsWord .register
  | position : IsWord .position
  | global : IsWord .global
  | field : IsWord .field

theorem Codeblock.operandAt_word {block : Codeblock} {kind : OperandKind} {ip : Nat} {w : Word}
    (single : kind.IsWord) (read : block.word ip = .ok w) :
    ∃ x, block.operandAt kind ip = .ok (x, ip + 1) := by
  unfold operandAt
  rw [read]
  cases single <;> exact ⟨_, rfl⟩

def Machine.movedTo (m : Machine) (f : Frame) (below : List Frame) (ip : Nat) : Machine :=
  { m with frames := { f with ip } :: below }

namespace Run

variable {α β : Type} {env : Env} {m m' : Machine} {f : Frame} {below : List Frame}
  {kinds more : List OperandKind}

section Readers

/-! Reading operands moves the frame on top and changes nothing else. -/

theorem nextWord_eq_ok {w : Word} (frames : m.frames = f :: below)
    (done : nextWord env m = .ok w m') :
    f.pattern.block.word f.ip = .ok w ∧ m' = m.movedTo f below (f.ip + 1) := by
  cases read : f.pattern.block.word f.ip with
  | ok word =>
    have here : nextWord env m = .ok word (m.movedTo f below (f.ip + 1)) :=
      onFrame_ok frames (by rw [read]; rfl)
    cases here.symm.trans done
    exact ⟨rfl, rfl⟩
  | error fault =>
    have here : nextWord env m = .error (.fatal fault) m :=
      onFrame_error frames (by rw [read]; rfl)
    cases here.symm.trans done

theorem nextIndex_eq_ok {i : Nat} (frames : m.frames = f :: below)
    (done : nextIndex env m = .ok i m') :
    ∃ w, f.pattern.block.word f.ip = .ok w ∧ i = w.toNat ∧
      m' = m.movedTo f below (f.ip + 1) := by
  obtain ⟨w, m₁, read, rest⟩ := (bind_eq_ok).mp done
  obtain ⟨word, rfl⟩ := nextWord_eq_ok frames read
  obtain ⟨rfl, rfl⟩ := (pure_eq_ok).mp rest
  exact ⟨w, word, rfl, rfl⟩

theorem nextValue_eq_ok {v : Value} (frames : m.frames = f :: below)
    (done : nextValue env m = .ok v m') :
    ∃ w, f.pattern.block.word f.ip = .ok w ∧ f.registers[w.toNat]? = some v ∧
      m' = m.movedTo f below (f.ip + 1) := by
  obtain ⟨i, m₁, read, rest⟩ := (bind_eq_ok).mp done
  obtain ⟨w, word, rfl, rfl⟩ := nextIndex_eq_ok frames read
  obtain ⟨value, rfl⟩ := (register_eq_ok).mp rest
  exact ⟨w, word, value, rfl⟩

theorem nextConstant_eq_ok {v : Value} (frames : m.frames = f :: below)
    (done : nextConstant env m = .ok v m') :
    ∃ w, f.pattern.block.word f.ip = .ok w ∧ f.pattern.block.constant w = .ok v ∧
      m' = m.movedTo f below (f.ip + 1) := by
  obtain ⟨w, m₁, read, rest⟩ := (bind_eq_ok).mp done
  obtain ⟨word, rfl⟩ := nextWord_eq_ok frames read
  cases found : f.pattern.block.constant w with
  | ok value =>
    have here : onFrame (fun f => return (← f.pattern.block.constant w, f)) env
        (m.movedTo f below (f.ip + 1)) = .ok value (m.movedTo f below (f.ip + 1)) :=
      onFrame_ok rfl (by rw [found]; rfl)
    cases here.symm.trans rest
    exact ⟨w, word, found, rfl⟩
  | error fault =>
    have here : onFrame (fun f => return (← f.pattern.block.constant w, f)) env
        (m.movedTo f below (f.ip + 1)) = .error (.fatal fault) (m.movedTo f below (f.ip + 1)) :=
      onFrame_error rfl (by rw [found]; rfl)
    cases here.symm.trans rest

theorem jump_eq_ok {target : Nat} {u : Unit} (frames : m.frames = f :: below)
    (done : jump target env m = .ok u m') : m'.frames = { f with ip := target } :: below := by
  by_cases inside : target ≤ f.codeSize
  · cases (jump_ok frames inside).symm.trans done
    rfl
  · cases (jump_error frames (Nat.lt_of_not_le inside)).symm.trans done

theorem ofExcept_eq_ok {x : Except Fault α} {a : α} :
    ofExcept x env m = .ok a m' ↔ x = .ok a ∧ m = m' := by
  cases x with
  | ok b =>
    change (pure b : Run α) env m = .ok a m' ↔ _
    simp [pure_eq_ok]
  | error fault =>
    change EStateM.Result.error (Unwind.fatal fault) m = .ok a m' ↔ _
    simp

theorem nextValues_eq_ok {count : Nat} {values : List Value} (frames : m.frames = f :: below)
    (done : nextValues count env m = .ok values m') :
    ∃ words next, f.pattern.block.wordsAt count f.ip = .ok (words, next) ∧
      m' = m.movedTo f below next := by
  induction count generalizing m f values with
  | zero =>
    obtain ⟨_, rfl⟩ := (pure_eq_ok).mp done
    exact ⟨[], f.ip, rfl, by simp [Machine.movedTo, ← frames]⟩
  | succ count ih =>
    obtain ⟨v, m₁, first, rest⟩ := (bind_eq_ok).mp done
    obtain ⟨w, word, _, rfl⟩ := nextValue_eq_ok frames first
    obtain ⟨others, m₂, later, same⟩ := (bind_eq_ok).mp rest
    obtain ⟨_, rfl⟩ := (pure_eq_ok).mp same
    obtain ⟨words, next, read, rfl⟩ := ih rfl later
    refine ⟨w :: words, next, ?_, rfl⟩
    exact (Codeblock.bind_ok).mpr ⟨w, word, (Codeblock.bind_ok).mpr ⟨(words, next), read, rfl⟩⟩

theorem nextPairs_eq_ok {count : Nat} {entries : List (Value × Value)}
    (frames : m.frames = f :: below) (done : nextPairs count env m = .ok entries m') :
    ∃ pairs next, f.pattern.block.pairsAt count f.ip = .ok (pairs, next) ∧
      m' = m.movedTo f below next := by
  induction count generalizing m f entries with
  | zero =>
    obtain ⟨_, rfl⟩ := (pure_eq_ok).mp done
    exact ⟨[], f.ip, rfl, by simp [Machine.movedTo, ← frames]⟩
  | succ count ih =>
    obtain ⟨k, m₁, first, rest⟩ := (bind_eq_ok).mp done
    obtain ⟨key, keyRead, _, rfl⟩ := nextValue_eq_ok frames first
    obtain ⟨v, m₂, second, rest⟩ := (bind_eq_ok).mp rest
    obtain ⟨value, valueRead, _, rfl⟩ := nextValue_eq_ok rfl second
    obtain ⟨others, m₃, later, same⟩ := (bind_eq_ok).mp rest
    obtain ⟨_, rfl⟩ := (pure_eq_ok).mp same
    obtain ⟨pairs, next, read, rfl⟩ := ih rfl later
    refine ⟨(key, value) :: pairs, next, ?_, rfl⟩
    exact (Codeblock.bind_ok).mpr ⟨key, keyRead, (Codeblock.bind_ok).mpr ⟨value, valueRead,
      (Codeblock.bind_ok).mpr ⟨(pairs, next), read, rfl⟩⟩⟩

theorem nextKeywords_eq_ok {count : Nat} {keywords : List (String × Value)}
    (frames : m.frames = f :: below) (done : nextKeywords count env m = .ok keywords m') :
    ∃ entries next, f.pattern.block.keywordsAt count f.ip = .ok (entries, next) ∧
      m' = m.movedTo f below next := by
  induction count generalizing m f keywords with
  | zero =>
    obtain ⟨_, rfl⟩ := (pure_eq_ok).mp done
    exact ⟨[], f.ip, rfl, by simp [Machine.movedTo, ← frames]⟩
  | succ count ih =>
    obtain ⟨c, m₁, first, rest⟩ := (bind_eq_ok).mp done
    obtain ⟨name, nameRead, constant, rfl⟩ := nextConstant_eq_ok frames first
    obtain ⟨v, m₂, second, rest⟩ := (bind_eq_ok).mp rest
    obtain ⟨register, registerRead, _, rfl⟩ := nextValue_eq_ok rfl second
    -- Looking the name up changes nothing.
    obtain ⟨h, m₃, handle, rest⟩ := (bind_eq_ok).mp rest
    obtain ⟨_, rfl⟩ := (ofExcept_eq_ok).mp handle
    obtain ⟨content, m₄, spelled, rest⟩ := (bind_eq_ok).mp rest
    obtain ⟨_, rfl⟩ := (onHeap_eq_ok).mp spelled
    obtain ⟨others, m₅, later, same⟩ := (bind_eq_ok).mp rest
    obtain ⟨_, rfl⟩ := (pure_eq_ok).mp same
    obtain ⟨entries, next, read, rfl⟩ := ih rfl later
    refine ⟨((name, c), register) :: entries, next, ?_, rfl⟩
    exact (Codeblock.bind_ok).mpr ⟨name, nameRead, (Codeblock.bind_ok).mpr ⟨c, constant,
      (Codeblock.bind_ok).mpr ⟨register, registerRead,
        (Codeblock.bind_ok).mpr ⟨(entries, next), read, rfl⟩⟩⟩⟩

end Readers

/-- A computation that succeeds has taken operands of these kinds off the frame on top. -/
def Takes (env : Env) (kinds : List OperandKind) (c : Run α) : Prop :=
  ∀ ⦃m a m' f below⦄, c env m = .ok a m' → m.frames = f :: below → ∃ operands changed,
    f.pattern.block.operandsAt kinds f.ip = .ok (operands, changed.ip) ∧
      m'.frames = changed :: below ∧ changed.shape = f.shape

section Rules

theorem Takes.bind {c : Run α} {k : α → Run β} (first : Takes env kinds c)
    (next : ∀ a, Takes env more (k a)) : Takes env (kinds ++ more) (c >>= k) := by
  intro m b m' f below done frames
  obtain ⟨a, m₁, ran, rest⟩ := (bind_eq_ok).mp done
  obtain ⟨xs, moved, readOne, framesOne, shapeOne⟩ := first ran frames
  obtain ⟨ys, changed, readTwo, framesTwo, shapeTwo⟩ := next a rest framesOne
  have pattern : moved.pattern = f.pattern := congrArg (·.2.1) shapeOne
  rw [pattern] at readTwo
  exact ⟨xs ++ ys, changed, Codeblock.operandsAt_append readOne readTwo, framesTwo,
    shapeTwo.trans shapeOne⟩

/-- A computation that leaves the frames alone takes no operand. -/
theorem Takes.none {c : Run α} (same : ∀ m a m', c env m = .ok a m' → m'.frames = m.frames) :
    Takes env [] c :=
  fun m a m' f _ done frames => ⟨[], f, rfl, (same m a m' done).trans frames, rfl⟩

theorem Takes.still {c : Run α} (orderly : ∀ m, Orderly 0 env c m) : Takes env [] c := by
  exact .none fun m a m' done => ((orderly m).moves done).frames

theorem Takes.read {k : Env → Run β} (next : Takes env kinds (k env)) :
    Takes env kinds (MonadReader.read >>= k) := next

/-- What comes after the operands makes no difference if it leaves the frames alone. -/
theorem Takes.after {c : Run α} {k : α → Run β} (first : Takes env kinds c)
    (next : ∀ a m, Orderly 0 env (k a) m) : Takes env kinds (c >>= k) := by
  have whole := first.bind fun a => Takes.still (next a)
  rwa [List.append_nil] at whole

/-- What comes before the operands makes no difference if it leaves the frames alone. -/
theorem Takes.before {c : Run α} {k : α → Run β} (first : ∀ m, Orderly 0 env c m)
    (next : ∀ a, Takes env kinds (k a)) : Takes env kinds (c >>= k) :=
  (Takes.still first).bind next

/-- A computation that never succeeds. -/
def Fruitless (env : Env) (c : Run α) : Prop := ∀ m a m', c env m ≠ .ok a m'

theorem Fruitless.takes {c : Run α} (fruitless : Fruitless env c) : Takes env kinds c :=
  fun m a m' _ _ done => (fruitless m a m' done).elim

theorem Fruitless.bind {c : Run α} {k : α → Run β} (next : ∀ a, Fruitless env (k a)) :
    Fruitless env (c >>= k) := by
  intro m b m' done
  obtain ⟨a, m₁, _, rest⟩ := (bind_eq_ok).mp done
  exact next a m₁ b m' rest

theorem fruitless_fail {fault : Fault} : Fruitless env (fail fault : Run α) :=
  fun _ _ _ done => by cases done

theorem fruitless_raise {v : Value} : Fruitless env (raise v : Run α) :=
  fun _ _ _ done => by cases done

theorem fruitless_complain {complaint : Complaint} : Fruitless env (complain complaint : Run α) :=
  .bind fun _ => .bind fun _ => .bind fun _ => fruitless_raise

end Rules

section Operands

theorem takes_nextIndex {kind : OperandKind} (single : kind.IsWord) :
    Takes env [kind] nextIndex := by
  intro m i m' f below done frames
  obtain ⟨w, word, _, rfl⟩ := nextIndex_eq_ok frames done
  obtain ⟨x, read⟩ := Codeblock.operandAt_word single word
  exact ⟨[x], { f with ip := f.ip + 1 }, Codeblock.operandsAt_single read, rfl, rfl⟩

theorem takes_nextValue : Takes env [.register] nextValue := by
  intro m v m' f below done frames
  obtain ⟨w, word, _, rfl⟩ := nextValue_eq_ok frames done
  obtain ⟨x, read⟩ := Codeblock.operandAt_word .register word
  exact ⟨[x], { f with ip := f.ip + 1 }, Codeblock.operandsAt_single read, rfl, rfl⟩

theorem takes_store (v : Value) : Takes env [.register] (store v) := by
  intro m u m' f below done frames
  obtain ⟨i, m₁, indexed, rest⟩ := (bind_eq_ok).mp done
  obtain ⟨xs, moved, read, framesOne, shape⟩ :=
    takes_nextIndex .register indexed frames
  by_cases inside : i < moved.registers.size
  · cases (setRegister_ok framesOne inside).symm.trans rest
    exact ⟨xs, { moved with registers := moved.registers.setIfInBounds i v }, read, rfl,
      by simpa [Frame.shape] using shape⟩
  · cases (setRegister_error framesOne (Nat.le_of_not_lt inside)).symm.trans rest

theorem takes_nextConstant : Takes env [.constant] nextConstant := by
  intro m v m' f below done frames
  obtain ⟨w, word, constant, rfl⟩ := nextConstant_eq_ok frames done
  refine ⟨[.constant w v], { f with ip := f.ip + 1 }, Codeblock.operandsAt_single ?_, rfl, rfl⟩
  exact (Codeblock.bind_ok).mpr ⟨w, word, (Codeblock.bind_ok).mpr ⟨v, constant, rfl⟩⟩

theorem takes_nextName : Takes env [.constant] nextName :=
  (takes_nextConstant).after fun _ _ => (Orderly.ofExcept).bind fun _ _ => .onHeap

theorem takes_countedValues : Takes env [.registers] countedValues := by
  intro m values m' f below done frames
  obtain ⟨i, m₁, counted, rest⟩ := (bind_eq_ok).mp done
  obtain ⟨w, word, rfl, rfl⟩ := nextIndex_eq_ok frames counted
  obtain ⟨words, next, read, rfl⟩ := nextValues_eq_ok rfl rest
  refine ⟨[.registers words], { f with ip := next }, Codeblock.operandsAt_single ?_, rfl, rfl⟩
  exact (Codeblock.bind_ok).mpr ⟨w, word, (Codeblock.bind_ok).mpr ⟨(words, next), read, rfl⟩⟩

theorem takes_countedPairs : Takes env [.pairs] (nextIndex >>= nextPairs) := by
  intro m entries m' f below done frames
  obtain ⟨i, m₁, counted, rest⟩ := (bind_eq_ok).mp done
  obtain ⟨w, word, rfl, rfl⟩ := nextIndex_eq_ok frames counted
  obtain ⟨pairs, next, read, rfl⟩ := nextPairs_eq_ok rfl rest
  refine ⟨[.pairs pairs], { f with ip := next }, Codeblock.operandsAt_single ?_, rfl, rfl⟩
  exact (Codeblock.bind_ok).mpr ⟨w, word, (Codeblock.bind_ok).mpr ⟨(pairs, next), read, rfl⟩⟩

theorem takes_countedKeywords : Takes env [.keywords] (nextIndex >>= nextKeywords) := by
  intro m keywords m' f below done frames
  obtain ⟨i, m₁, counted, rest⟩ := (bind_eq_ok).mp done
  obtain ⟨w, word, rfl, rfl⟩ := nextIndex_eq_ok frames counted
  obtain ⟨entries, next, read, rfl⟩ := nextKeywords_eq_ok rfl rest
  refine ⟨[.keywords entries], { f with ip := next }, Codeblock.operandsAt_single ?_, rfl, rfl⟩
  exact (Codeblock.bind_ok).mpr ⟨w, word, (Codeblock.bind_ok).mpr ⟨(entries, next), read, rfl⟩⟩

end Operands

end Run

end JourneyMachine
