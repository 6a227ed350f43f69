import JourneyMachine.Proofs.Control.Shedding

/-! Regions that handlers guard. The code of a block nests if it can be told for every position how
many regions are open there, whichever way it is reached. Then a sub-program that returns leaves at
most as many handlers of its own as regions are open where it returns, and as many if what it calls
gives back the handlers as they were. -/

namespace JourneyMachine

/-- Where an instruction in so many open regions leads to, and how many are open there. A region is
entered before the instruction behind, and left where its handler resumes. -/
def Instruction.leads (i : Instruction) (n : Nat) : List (Nat × Nat) :=
  match i.operation, i.operands with
  | .opcode .tryCatch, [.position resume, .register _] => [(resume.toNat, n), (i.next, n + 1)]
  | .opcode .popTryCatch, _ => [(i.next, n - 1)]
  | .opcode .jmp, [.position target] => [(target.toNat, n)]
  | .opcode .jmpTrue, [.register _, .position target]
  | .opcode .jmpFalse, [.register _, .position target] => [(target.toNat, n), (i.next, n)]
  | .opcode .ret, _ | .opcode .throw, _ => []
  | _, _ => [(i.next, n)]

namespace Codeblock

/-- At the positions that have a level so many regions are open, and every instruction there leads to
positions of the level that it leaves. -/
def Nests (block : Codeblock) (level : Nat → Option Nat) : Prop :=
  ∀ ip n i, level ip = some n → block.instructionAt ip = .ok i →
    (i.operation = .opcode .popTryCatch → 0 < n) ∧ ∀ p ∈ i.leads n, level p.1 = some p.2

/-- The code returns at a position: at its end or by an instruction. -/
def Returns (block : Codeblock) (ip : Nat) : Prop :=
  block.code.size ≤ ip ∨ ∃ w, block.word ip = .ok w ∧ Opcode.ofWord? w = some .ret

section Decoding

variable {block : Codeblock} {ip next : Nat} {i : Instruction} {w : Word} {opcode : Opcode}
  {operands : List Operand}

theorem instructionAt_inv (decoded : block.instructionAt ip = .ok i) : i.ip = ip ∧
    ∃ first, block.operationAt ip = .ok (i.operation, first) ∧
      block.operandsAt i.operation.layout first = .ok (i.operands, i.next) := by
  obtain ⟨⟨operation, first⟩, operationRead, rest⟩ := (bind_ok).mp decoded
  obtain ⟨⟨operands, next⟩, operandsRead, same⟩ := (bind_ok).mp rest
  cases same
  exact ⟨rfl, first, operationRead, operandsRead⟩

theorem decodes (word : block.word ip = .ok w) (known : Opcode.ofWord? w = some opcode)
    (plain : opcode ≠ .int) (decoded : block.instructionAt ip = .ok i) :
    i.operation = .opcode opcode ∧
      block.operandsAt opcode.layout (ip + 1) = .ok (i.operands, i.next) := by
  obtain ⟨_, first, operation, operands⟩ := instructionAt_inv decoded
  have there : block.operationAt ip = .ok (.opcode opcode, ip + 1) := by
    refine (bind_ok).mpr ⟨w, word, ?_⟩
    rw [known]
    cases opcode with
    | int => exact absurd rfl plain
    | _ => rfl
  obtain ⟨same, rfl⟩ := Prod.mk.inj (Except.ok.inj (there.symm.trans operation))
  rw [← same] at operands
  exact ⟨same.symm, operands⟩

theorem decodes_service (word : block.word ip = .ok w) (known : Opcode.ofWord? w = some .int)
    (decoded : block.instructionAt ip = .ok i) : ∃ service, i.operation = .interrupt service := by
  obtain ⟨_, first, operation, _⟩ := instructionAt_inv decoded
  obtain ⟨_, same, rest⟩ := (bind_ok).mp operation
  cases word.symm.trans same
  rw [known] at rest
  obtain ⟨s, _, served⟩ := (bind_ok).mp rest
  split at served
  · cases served
  · exact ⟨_, (Prod.mk.inj (Except.ok.inj served)).1.symm⟩

theorem instructionAt_next (decoded : block.instructionAt ip = .ok i) : ip + i.width = i.next := by
  obtain ⟨own, first, operation, operands⟩ := instructionAt_inv decoded
  have ahead : ip ≤ first := by
    obtain ⟨w, _, rest⟩ := (bind_ok).mp operation
    split at rest
    · cases rest
    · obtain ⟨s, _, served⟩ := (bind_ok).mp rest
      split at served
      · cases served
      · have start := (Prod.mk.inj (Except.ok.inj served)).2
        omega
    · have start := (Prod.mk.inj (Except.ok.inj rest)).2
      omega
  have behind := operandsAt_next operands
  rw [Instruction.width]
  omega

theorem operandsAt_target (read : block.operandsAt [.position] ip = .ok (operands, next)) :
    ∃ target, operands = [.position target] := by
  obtain ⟨⟨x, mid⟩, first, rest⟩ := (bind_ok).mp read
  obtain ⟨target, _, same⟩ := (bind_ok).mp first
  cases same
  cases rest
  exact ⟨target, rfl⟩

theorem operandsAt_branch (read : block.operandsAt [.register, .position] ip = .ok (operands, next)) :
    ∃ r target, operands = [.register r, .position target] := by
  obtain ⟨⟨x, mid⟩, first, rest⟩ := (bind_ok).mp read
  obtain ⟨⟨others, last⟩, second, same⟩ := (bind_ok).mp rest
  obtain ⟨r, _, tagged⟩ := (bind_ok).mp first
  obtain ⟨target, rfl⟩ := operandsAt_target second
  cases tagged
  cases same
  exact ⟨r, target, rfl⟩

theorem operandsAt_region {resume register : Word} (first : block.word ip = .ok resume)
    (second : block.word (ip + 1) = .ok register)
    (read : block.operandsAt [.position, .register] ip = .ok (operands, next)) :
    operands = [.position resume, .register register] ∧ next = ip + 2 := by
  have there : block.operandsAt [.position, .register] ip =
      .ok ([.position resume, .register register], ip + 2) :=
    operandsAt_append
      (operandsAt_single ((bind_ok).mpr ⟨resume, first, rfl⟩))
      (operandsAt_single ((bind_ok).mpr ⟨register, second, rfl⟩))
  cases there.symm.trans read
  exact ⟨rfl, rfl⟩

end Decoding

end Codeblock

/-- The machine stands on an instruction that installs or removes a handler. -/
def Machine.tends (m : Machine) : Bool :=
  (m.word? 0).bind Opcode.ofWord? = some .tryCatch ∨
    (m.word? 0).bind Opcode.ofWord? = some .popTryCatch

/-- What an instruction of the frame above so many does to the handlers where the level is known, and
the level that it leaves. -/
inductive Shifts (level : Nat → Option Nat) (depth : Nat) (tends : Bool) :
    Nat → List Handler → Nat → List Handler → Prop
  | keeps {n : Nat} {before after : List Handler} : tends = false → after <:+ before →
      Shifts level depth tends n before n after
  | opens {n : Nat} {before : List Handler} {record : Handler} : record.frame = depth →
      level record.resume = some n → Shifts level depth tends n before (n + 1) (record :: before)
  | closes {n : Nat} {after : List Handler} {record : Handler} :
      Shifts level depth tends (n + 1) (record :: after) n after

namespace Run

variable {env : Env} {m m' : Machine} {f : Frame} {below : List Frame} {level : Nat → Option Nat}
  {n : Nat}

theorem tends_eq {w : Word} (frames : m.frames = f :: below)
    (word : f.pattern.block.word f.ip = .ok w) :
    m.tends = (Opcode.ofWord? w = some .tryCatch ∨ Opcode.ofWord? w = some .popTryCatch : Bool) := by
  have same : m.word? 0 = some w := by
    unfold Codeblock.word at word
    simp only [Machine.word?, frames, List.head?_cons, Option.bind_eq_bind, Option.bind_some,
      Nat.add_zero]
    split at word
    · cases word
      assumption
    · cases word
  simp only [Machine.tends, same, Option.bind_some]

theorem leads_next {opcode : Opcode} {ip next : Nat} {operands : List Operand}
    (other : opcode ∉ [.tryCatch, .popTryCatch, .jmp, .jmpTrue, .jmpFalse, .ret, .throw]) :
    Instruction.leads ⟨ip, .opcode opcode, operands, next⟩ n = [(next, n)] := by
  cases opcode <;> simp at other <;> rfl

/-- Where a step goes on, the instruction leads there, and opens and closes no region unless it
installs or removes a handler. -/
theorem advances_leads {w : Word} {opcode : Opcode} {i : Instruction} {position : Nat}
    (word : f.pattern.block.word f.ip = .ok w) (known : Opcode.ofWord? w = some opcode)
    (decoded : f.pattern.block.instructionAt f.ip = .ok i)
    (other : opcode ∉ [.tryCatch, .popTryCatch, .ret, .throw])
    (jumped : ∀ target, i.Jumps env m f below target → position = target)
    (passed : (∀ target, ¬ i.Jumps env m f below target) → position = f.ip + i.width) :
    (position, n) ∈ i.leads n := by
  rw [Codeblock.instructionAt_next decoded] at passed
  -- The decoder lists the target of a jump and the next instruction, and the step goes to one of
  -- them.
  by_cases jumps : ∃ target, i.Jumps env m f below target
  · obtain ⟨target, jumps⟩ := jumps
    rw [jumped target jumps]
    obtain ⟨ip, operation, operands, next⟩ := i
    rcases jumps with ⟨same, shape⟩ | @⟨jump, sense, _, _, _, _, same, taken, shape, _⟩
    · cases same
      cases shape
      simp [Instruction.leads]
    · cases same
      cases shape
      cases jump <;> simp [Opcode.sense?] at taken <;> simp [Instruction.leads]
  · have stays : ∀ target, ¬ i.Jumps env m f below target := fun target goes => jumps ⟨target, goes⟩
    rw [passed stays]
    by_cases int : opcode = .int
    · subst int
      obtain ⟨service, same⟩ := Codeblock.decodes_service word known decoded
      obtain ⟨ip, operation, operands, next⟩ := i
      cases same
      simp [Instruction.leads]
    · obtain ⟨same, read⟩ := Codeblock.decodes word known int decoded
      obtain ⟨ip, operation, operands, next⟩ := i
      cases same
      by_cases jmp : opcode = .jmp
      · subst jmp
        obtain ⟨target, rfl⟩ := Codeblock.operandsAt_target read
        exact absurd (.always rfl rfl) (stays target.toNat)
      · by_cases branch : opcode = .jmpTrue ∨ opcode = .jmpFalse
        · rcases branch with rfl | rfl <;>
          · obtain ⟨r, target, rfl⟩ := Codeblock.operandsAt_branch read
            simp [Instruction.leads]
        · rw [leads_next (by simp at other branch ⊢; tauto)]
          simp

theorem removeHandler_eq_ok {flow : Flow} (done : removeHandler env m = .ok flow m') :
    m'.frames = m.frames ∧ ∃ record, m.handlers.records = record :: m'.handlers.records := by
  unfold removeHandler at done
  obtain ⟨_, _, same, rest⟩ := (bind_eq_ok).mp done
  cases same
  unfold HandlerStack.pop? at rest
  cases records : m.handlers.records with
  | nil =>
    rw [records] at rest
    cases rest
  | cons record older =>
    rw [records] at rest
    cases rest
    exact ⟨rfl, record, rfl⟩

/-- One step shifts the level of the frame on top by what it does to the handlers. -/
theorem step_shifts (calls : env.Orderly) (frames : m.frames = f :: below)
    (nests : f.pattern.block.Nests level) (place : level f.ip = some n)
    (done : step env m = .ok .next m') :
    ∃ changed k, m'.frames = changed :: below ∧ changed.pattern = f.pattern ∧
      level changed.ip = some k ∧
      Shifts level below.length m.tends n m.handlers.records k m'.handlers.records := by
  obtain ⟨w, opcode, word, known, executed⟩ := step_opcode frames done rfl
  obtain ⟨i, decoded, changed, left, shape, jumped, passed⟩ := step_advances calls frames done
  obtain ⟨closes, leads⟩ := nests f.ip n i place decoded
  have pattern : changed.pattern = f.pattern := congrArg (·.2.1) shape
  have tends := tends_eq frames word
  rw [known] at tends
  -- Only two instructions touch the handlers on purpose: one adds a handler to the level, one takes
  -- it.
  by_cases opening : opcode = .tryCatch
  · subst opening
    obtain ⟨same, read⟩ := Codeblock.decodes word known (by decide) decoded
    obtain ⟨resume, register, first, second, moved, records⟩ := installHandler_eq_ok rfl executed
    obtain ⟨ip, operation, operands, next⟩ := i
    obtain ⟨rfl, rfl⟩ := Codeblock.operandsAt_region first second read
    cases same
    have resumes := leads (resume.toNat, n) (by simp [Instruction.leads])
    have enters := leads (f.ip + 1 + 2, n + 1) (by simp [Instruction.leads])
    refine ⟨_, n + 1, moved, rfl, enters, ?_⟩
    rw [records]
    exact .opens rfl resumes
  · by_cases closing : opcode = .popTryCatch
    · subst closing
      obtain ⟨same, read⟩ := Codeblock.decodes word known (by decide) decoded
      obtain ⟨frames, record, records⟩ := removeHandler_eq_ok executed
      obtain ⟨k, rfl⟩ := Nat.exists_eq_succ_of_ne_zero (closes same).ne'
      obtain ⟨ip, operation, operands, next⟩ := i
      cases same
      cases read
      refine ⟨_, k, frames, rfl, leads (f.ip + 1, k) (by simp [Instruction.leads]), ?_⟩
      have kept : m.handlers.records = record :: m'.handlers.records := records
      rw [kept]
      exact .closes
    · have ends : opcode ≠ .ret ∧ opcode ≠ .throw := by
        constructor
        · rintro rfl
          obtain ⟨_, _, _, rest⟩ := (bind_eq_ok).mp executed
          cases ((pure_eq_ok).mp rest).1
        · rintro rfl
          exact (Fruitless.bind (fun _ => fruitless_raise) _ _ _ executed).elim
      have lead := advances_leads (n := n) word known decoded (by simp [*]) jumped passed
      have shed := sheds_execute calls opcode opening (m.movedTo f below (f.ip + 1))
      rw [executed] at shed
      refine ⟨changed, n, left, pattern, leads _ lead, .keeps ?_ shed⟩
      simp [tends, opening, closing]

section Rounds

/-- Rounds that all go on lead from one machine to another. -/
inductive Comes (env : Env) (m : Machine) : Machine → Prop
  | here : Comes env m m
  | further {m₁ m₂ : Machine} : Comes env m m₁ → round env m₁ = .ok .next m₂ → Comes env m m₂

theorem Comes.before {m₁ m₂ : Machine} (first : round env m = .ok .next m₁)
    (comes : Comes env m₁ m₂) : Comes env m m₂ := by
  induction comes with
  | here => exact .further .here first
  | further _ last ih => exact ih.further last

theorem fetch_eq_ok {u : Unit} (done : fetch env m = .ok u m') :
    ∃ budget, m' = { m with budget } := by
  unfold fetch at done
  split at done
  · cases done
  · cases done
    exact ⟨_, rfl⟩

theorem round_eq_ok {flow : Flow} (done : round env m = .ok flow m') :
    ∃ budget, fetch env m = .ok () { m with budget } ∧
      (step env { m with budget } = .ok flow m' ∨
        flow = .next ∧ ∃ m₁, step env { m with budget } = .error .thrown m₁ ∧
          resume env m₁ = .ok () m') := by
  obtain ⟨_, m₁, fetched, rest⟩ := (bind_eq_ok).mp done
  obtain ⟨budget, rfl⟩ := fetch_eq_ok fetched
  refine ⟨budget, fetched, ?_⟩
  by_cases thrown : ∃ m₂, step env { m with budget } = .error .thrown m₂
  · obtain ⟨m₂, thrown⟩ := thrown
    rw [rescue_thrown thrown] at rest
    obtain ⟨_, m₃, resumed, same⟩ := (bind_eq_ok).mp rest
    obtain ⟨rfl, rfl⟩ := (pure_eq_ok).mp same
    exact .inr ⟨rfl, m₂, thrown, resumed⟩
  · rw [rescue_other rfl fun m₂ equal => thrown ⟨m₂, equal⟩] at rest
    exact .inl rest

/-- A loop that returns comes to a round that returns. -/
theorem loop_comes {rounds : Nat} {v : Value} (done : loop rounds env m = .ok v m') :
    ∃ m₁, Comes env m m₁ ∧ round env m₁ = .ok (.done v) m' := by
  induction rounds generalizing m with
  | zero => cases done
  | succ rounds ih =>
    rw [loop_succ] at done
    obtain ⟨flow, m₁, first, rest⟩ := (bind_eq_ok).mp done
    cases flow with
    | next =>
      obtain ⟨m₂, comes, last⟩ := ih rest
      exact ⟨m₂, comes.before first, last⟩
    | done w =>
      obtain ⟨rfl, rfl⟩ := (pure_eq_ok).mp rest
      exact ⟨m, .here, first⟩

theorem resume_eq_ok {u : Unit} (frames : m.frames = f :: below)
    (done : resume env m = .ok u m') : ∃ newest older, m.handlers.records = newest :: older ∧
      newest.frame = below.length ∧ m'.handlers.records = older ∧
      m'.frames = f.handling newest m.handlers.exception :: below := by
  have depth : m.frameDepth - 1 = below.length := by
    simp only [Machine.frameDepth, frames, List.length_cons, Nat.add_sub_cancel]
  by_cases own : ∃ newest older, m.handlers.records = newest :: older ∧ newest.frame = below.length
  · obtain ⟨newest, older, records, own⟩ := own
    refine ⟨newest, older, records, own, ?_⟩
    by_cases register : newest.register < f.registers.size
    · by_cases position : newest.resume ≤ f.codeSize
      · cases (resume_resumed frames records own register position).symm.trans done
        exact ⟨rfl, rfl⟩
      · have passed := Nat.lt_of_not_le position
        have failed : ∃ left, resume env m = .error (.fatal _) left :=
          resume_noPosition frames records own register passed
        obtain ⟨left, failed⟩ := failed
        cases failed.symm.trans done
    · cases (resume_noRegister frames records own (Nat.le_of_not_lt register)).symm.trans done
  · have passed : resume env m = .error .thrown m := resume_passes fun newest older records same =>
      own ⟨newest, older, records, same.trans depth⟩
    cases passed.symm.trans done

end Rounds

end Run

/-- Handlers of the frame above so many, the newest first, each in an open region around those of the
newer ones. -/
inductive Nested (level : Nat → Option Nat) (depth : Nat) : Nat → List Handler → Prop
  | nil {n : Nat} : Nested level depth n []
  | cons {n k : Nat} {record : Handler} {older : List Handler} : record.frame = depth →
      level record.resume = some k → k < n → Nested level depth k older →
      Nested level depth n (record :: older)

namespace Nested

variable {level : Nat → Option Nat} {depth n k : Nat} {own fewer : List Handler}

theorem mono (nested : Nested level depth k own) (le : k ≤ n) : Nested level depth n own := by
  cases nested with
  | nil => exact .nil
  | cons frame resume less older => exact .cons frame resume (by omega) older

theorem length_le (nested : Nested level depth n own) : own.length ≤ n := by
  induction nested with
  | nil => exact Nat.zero_le _
  | cons _ _ less _ ih =>
    rw [List.length_cons]
    omega

theorem owned (nested : Nested level depth n own) : ∀ record ∈ own, record.frame = depth := by
  induction nested with
  | nil => simp
  | cons frame _ _ _ ih => simpa using ⟨frame, ih⟩

theorem suffix (nested : Nested level depth n own) (suffix : fewer <:+ own) :
    Nested level depth n fewer := by
  induction nested with
  | nil =>
    rw [List.suffix_nil.mp suffix]
    exact .nil
  | cons frame resume less older ih =>
    rcases List.suffix_cons_iff.mp suffix with rfl | later
    · exact .cons frame resume less older
    · exact (ih later).mono less.le

end Nested

theorem suffix_append_cases {α : Type} {l own older : List α} (suffix : l <:+ own ++ older) :
    ∃ fewer rest, l = fewer ++ rest ∧ fewer <:+ own ∧ rest <:+ older := by
  rcases List.suffix_or_suffix_of_suffix suffix (List.suffix_append own older) with less | ⟨fewer, rfl⟩
  · exact ⟨[], l, rfl, List.nil_suffix, less⟩
  · obtain ⟨gone, same⟩ := suffix
    rw [← List.append_assoc] at same
    exact ⟨fewer, older, rfl, ⟨gone, List.append_cancel_right same⟩, List.suffix_refl _⟩

/-- The handlers in code of that level, above what is left of those that were there before. If
nothing else removes handlers, they are as many as regions are open, and all those before are there. -/
def Guards (level : Nat → Option Nat) (depth : Nat) (before : List Handler) (strict : Prop) (n : Nat)
    (records : List Handler) : Prop :=
  ∃ own older, records = own ++ older ∧ Nested level depth n own ∧ older <:+ before ∧
    (strict → older = before ∧ own.length = n)

namespace Guards

variable {level : Nat → Option Nat} {depth n k : Nat} {before records after older : List Handler}
  {strict : Prop} {newest : Handler} {tends : Bool}

theorem start : Guards level depth before strict 0 before :=
  ⟨[], before, rfl, .nil, List.suffix_refl before, fun _ => ⟨rfl, rfl⟩⟩

theorem shed (guards : Guards level depth before strict n records) (suffix : after <:+ records)
    (same : strict → after = records) : Guards level depth before strict n after := by
  obtain ⟨own, rest, rfl, nested, kept, exact⟩ := guards
  obtain ⟨fewer, less, rfl, left, right⟩ := suffix_append_cases suffix
  refine ⟨fewer, less, rfl, nested.suffix left, right.trans kept, fun assumed => ?_⟩
  obtain ⟨whole, length⟩ := exact assumed
  have lengths := congrArg List.length (same assumed)
  have one := left.length_le
  have two := right.length_le
  rw [List.length_append, List.length_append] at lengths
  constructor
  · rw [← whole]
    exact right.eq_of_length (by omega)
  · omega

theorem shift (guards : Guards level depth before strict n records)
    (shifts : Shifts level depth tends n records k after)
    (same : strict → tends = false → after = records) : Guards level depth before strict k after := by
  cases shifts with
  | keeps still suffix => exact guards.shed suffix fun assumed => same assumed still
  | opens frame resume =>
    obtain ⟨own, rest, rfl, nested, kept, exact⟩ := guards
    refine ⟨_ :: own, rest, rfl, .cons frame resume (Nat.lt_succ_self n) nested, kept, ?_⟩
    intro assumed
    obtain ⟨whole, length⟩ := exact assumed
    exact ⟨whole, congrArg (· + 1) length⟩
  | closes =>
    obtain ⟨own, rest, records, nested, kept, exact⟩ := guards
    cases nested with
    | nil =>
      -- None of its own is left, so the one that is removed was there before.
      have shorter : after <:+ rest := by
        rw [← List.nil_append rest, ← records]
        exact List.suffix_cons ..
      refine ⟨[], after, rfl, .nil, shorter.trans kept, fun assumed => ?_⟩
      cases (exact assumed).2
    | cons frame resume less inner =>
      cases records
      refine ⟨_, rest, rfl, inner.mono (by omega), kept, fun assumed => ?_⟩
      obtain ⟨whole, length⟩ := exact assumed
      exact ⟨whole, Nat.succ.inj length⟩

/-- A handler of the frame that takes a throw is one of its own, and its region is left. -/
theorem catches (guards : Guards level depth before strict n (newest :: older))
    (fresh : ∀ record ∈ before, record.frame < depth) (own : newest.frame = depth) :
    ∃ k, level newest.resume = some k ∧ Guards level depth before strict k older := by
  obtain ⟨mine, rest, records, nested, kept, exact⟩ := guards
  cases nested with
  | nil =>
    have member : newest ∈ rest := by
      rw [← List.nil_append rest, ← records]
      exact List.mem_cons_self
    have shallow := fresh newest (kept.subset member)
    omega
  | @cons _ k _ inner frame resume less nested =>
    cases records
    refine ⟨k, resume, inner, rest, rfl, nested, kept, fun assumed => ?_⟩
    obtain ⟨whole, length⟩ := exact assumed
    have deep := nested.length_le
    rw [List.length_cons] at length
    exact ⟨whole, by omega⟩

end Guards

/-- The code of a block runs in the frame on top of `below`, and the handlers are as its regions say. -/
def Machine.Guarded (level : Nat → Option Nat) (block : Codeblock) (below : List Frame)
    (before : List Handler) (strict : Prop) (m : Machine) : Prop :=
  ∃ top n, m.frames = top :: below ∧ top.pattern.block = block ∧ level top.ip = some n ∧
    Guards level below.length before strict n m.handlers.records

namespace Run

/-- A step of the machine leaves the handlers as they are, unless it is one that installs or removes
one. -/
def restores (env : Env) (m : Machine) : Bool :=
  match (fetch >>= fun _ => step) env m with
  | .ok .next m' => m.tends || m'.handlers.records = m.handlers.records
  | .error .thrown m' => m'.handlers.records = m.handlers.records
  | _ => true

variable {env : Env} {m m' : Machine} {level : Nat → Option Nat} {block : Codeblock}
  {below : List Frame} {before : List Handler} {strict : Prop}

section Guarding

variable (calls : env.Orderly) (nests : block.Nests level)
include calls nests

/-- A round that goes on keeps what the regions say of the handlers. -/
theorem guarded_round (fresh : ∀ record ∈ before, record.frame < below.length)
    (restored : strict → restores env m = true)
    (guarded : m.Guarded level block below before strict) (done : round env m = .ok .next m') :
    m'.Guarded level block below before strict := by
  obtain ⟨top, n, frames, rfl, place, guards⟩ := guarded
  obtain ⟨budget, fetched, stepped | ⟨-, m₁, thrown, resumed⟩⟩ := round_eq_ok done
  · obtain ⟨changed, k, left, pattern, there, shifts⟩ :=
      step_shifts (m := { m with budget }) calls frames nests place stepped
    refine ⟨changed, k, left, by rw [pattern], there, guards.shift shifts fun assumed still => ?_⟩
    have same := restored assumed
    rw [restores, bind_ok fetched, stepped] at same
    have calm : m.tends = false := still
    simpa [calm] using same
  · have shed := step_thrown (m := { m with budget }) frames calls thrown
    have arrives := thrown_arrives (m := m) calls frames ((bind_ok fetched).trans thrown)
    obtain ⟨moves, -, now, left⟩ := arrives
    obtain ⟨newest, older, records, own, after, framed⟩ := resume_eq_ok left resumed
    -- A call may have taken handlers along that it did not install, but the newest one that is left
    -- resumes in this frame, so it is one of its own.
    have still := guards.shed shed fun assumed => by
      have same := restored assumed
      rw [restores, bind_ok fetched, thrown] at same
      exact of_decide_eq_true same
    rw [records] at still
    obtain ⟨k, there, caught⟩ := still.catches fresh own
    have shapes := moves.shape
    rw [left, frames, List.map_cons, List.map_cons] at shapes
    have pattern : now.pattern = top.pattern := congrArg (·.2.1) (List.cons.inj shapes).1
    exact ⟨_, k, framed, congrArg (·.block) pattern, there, by rwa [after]⟩

theorem guarded_comes (fresh : ∀ record ∈ before, record.frame < below.length)
    (restored : strict → ∀ m₁, Comes env m m₁ → restores env m₁ = true)
    (guarded : m.Guarded level block below before strict) (comes : Comes env m m') :
    m'.Guarded level block below before strict := by
  induction comes with
  | here => exact guarded
  | @further m₁ m₂ comes last ih =>
    exact guarded_round calls nests fresh (fun assumed => restored assumed m₁ comes) ih last

end Guarding

theorem guarded_done {v : Value} (guarded : m.Guarded level block below before strict)
    (done : round env m = .ok (.done v) m') : ∃ ip n, block.Returns ip ∧ level ip = some n ∧
      Guards level below.length before strict n m'.handlers.records := by
  obtain ⟨top, n, frames, rfl, place, guards⟩ := guarded
  obtain ⟨budget, fetched, stepped | ⟨going, -⟩⟩ := round_eq_ok done
  · obtain ⟨same, returns⟩ := step_done (m := { m with budget }) frames stepped
    refine ⟨top.ip, n, ?_, place, by rwa [same]⟩
    rcases returns with ended | ret
    · exact .inl (of_decide_eq_true ended)
    · exact .inr ret
  · cases going

theorem onFrame_eq_ok {α : Type} {g : Frame → Except Fault (α × Frame)} {a : α}
    (done : onFrame g env m = .ok a m') : ∃ f rest changed, m.frames = f :: rest ∧
      g f = .ok (a, changed) ∧ m' = { m with frames := changed :: rest } := by
  unfold onFrame at done
  split at done
  · cases done
  · rename_i f rest frames
    split at done
    · rename_i b changed same
      cases done
      exact ⟨f, rest, changed, frames, same, rfl⟩
    · cases done

/-- A sub-program that starts outside all regions, in a frame that has no handlers, leaves handlers
where it returns: at most one for each region that is open there, and exactly one if no call that it
made removed any. -/
theorem evaluate_guards (calls : env.Orderly) (nests : block.Nests level) {top : Frame}
    (frames : m.frames = top :: below) (code : top.pattern.block = block)
    (fresh : ∀ record ∈ m.handlers.records, record.frame < below.length) {start : Nat}
    (entry : level start = some 0) {v : Value} (done : evaluate start env m = .ok v m')
    (strict : Prop) (restored : strict → ∀ m₁ m₂, jump start env m = .ok () m₁ → Comes env m₁ m₂ →
      restores env m₂ = true) :
    ∃ ip n, block.Returns ip ∧ level ip = some n ∧
      Guards level below.length m.handlers.records strict n m'.handlers.records := by
  obtain ⟨_, m₁, jumped, rest⟩ := (bind_eq_ok).mp done
  obtain ⟨m₂, comes, last⟩ := loop_comes (m := m₁) rest
  have same : m₁.handlers = m.handlers := by
    obtain ⟨_, _, _, _, _, rfl⟩ := onFrame_eq_ok jumped
    rfl
  have started : m₁.Guarded level block below m.handlers.records strict := by
    refine ⟨_, 0, jump_eq_ok frames jumped, code, entry, ?_⟩
    rw [same]
    exact .start
  have guarded := guarded_comes calls nests fresh (fun assumed m₂ => restored assumed m₁ m₂ jumped)
    started comes
  exact guarded_done guarded last

end Run

end JourneyMachine
