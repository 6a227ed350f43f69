import JourneyMachine.CommandLine
import JourneyMachine.Proofs.Control.Restoration
import JourneyMachine.Proofs.Image.RoundTrip

/-! Exits. A run in which an exit was asked for ends with that exit, whatever frames and handlers
there are, and the status of the command is read off the numeral it was asked for with. The numeral
is cut to 32 bits first and to a byte then; only the second cut minds that a code other than zero
does not become zero. -/

namespace JourneyMachine

open Host (World)

namespace Fault

/-- The status a numeral other than zero stands for. -/
def narrowed (n : Int64) : Int := if n.toInt % 256 = 0 then 1 else n.toInt % 256

/-- The low byte is the remainder. -/
theorem toNat_toUInt8 (n : Int64) : (n.toInt8.toUInt8.toNat : Int) = n.toInt % 256 := by
  have wrapped : n.toInt8.toInt = (n.toInt8.toUInt8.toNat : Int).bmod (2 ^ 8) := by
    rw [← Int8.toNat_toBitVec, ← Int8.toInt_toBitVec]
    exact BitVec.toInt_eq_toNat_bmod _
  have small : n.toInt8.toUInt8.toNat < 2 ^ 8 := UInt8.toNat_lt _
  rw [Int64.toInt_toInt8] at wrapped
  have same : n.toInt % (2 ^ 8 : Nat) = (n.toInt8.toUInt8.toNat : Int) % (2 ^ 8 : Nat) := by
    rw [← Int.bmod_emod, wrapped, Int.bmod_emod]
  omega

variable {n : Int64}

theorem exitStatus_zero (cut : n.toInt32 = 0) : (exit n.toInt32).exitStatus = 0 := by
  rw [exitStatus, if_pos (by exact cut)]

theorem exitStatus_nonzero (kept : n.toInt32 ≠ 0) :
    ((exit n.toInt32).exitStatus.toNat : Int) = narrowed n := by
  have byte := toNat_toUInt8 n
  have low : (exit n.toInt32).exitCode.toInt8.toUInt8 = n.toInt8.toUInt8 := by
    rw [exitCode, Int64.toInt8_toInt32]
  rw [exitStatus, if_neg (by exact kept), low, narrowed, ← byte]
  by_cases zero : n.toInt8.toUInt8 = 0
  · rw [if_pos zero, zero]
    rfl
  · have positive : (n.toInt8.toUInt8.toNat : Int) ≠ 0 := by
      intro none
      exact zero (UInt8.toNat_inj.mp (by simpa using none))
    rw [if_neg zero, if_neg positive]

theorem narrowed_ne_zero : narrowed n ≠ 0 := by
  rw [narrowed]
  split
  · decide
  · assumption

end Fault

namespace Run

variable {α : Type} {own : Nat} {env : Env} {m m' : Machine} {n : Int64}

/-- An exit notes the numeral its operand stands for, and ends the run with its low 32 bits. -/
theorem serve_exit (coerced : (nextValue >>= toNumeral) env m = .ok n m') :
    serve .exit env m =
      .error (.fatal (.exit n.toInt32)) { m' with handlers := m'.handlers.exit n } := by
  have same : serve .exit = (nextValue >>= toNumeral) >>= fun n => exit n := by
    simp only [serve, bind_assoc]
  rw [same, bind_ok coerced]
  rfl

/-- Where an exit was asked for, a computation that began without one ends with it. -/
theorem Ends.exits {result : EStateM.Result Unwind Machine α} (ends : Ends own m result)
    (going : m.Going) (asked : (after result).handlers.exitRequest = some n) :
    result = .error (.fatal (.exit n.toInt32)) (after result) := by
  -- Every end but a fault leaves a run going, with no exit asked for.
  rcases result with ⟨a, left⟩ | ⟨_ | fault | _, left⟩
  · have still : left.Going := ends.2.2 going
    exact absurd (still.symm.trans asked) (by simp)
  · have still : left.Going := ends.2.2 going
    exact absurd (still.symm.trans asked) (by simp)
  · have explained : fault = .exit n.toInt32 := ends.2.2.2 going n asked
    rw [explained]
    rfl
  · have still : left.Going := Machine.Visits.going ends going
    exact absurd (still.symm.trans asked) (by simp)

end Run

namespace Command

variable {settings : Settings} {world : World} {bytes : Except Trouble ByteArray} {m : Machine}
  {journeys : List Value} {image : Image} {args : List String} {n : Int64}

theorem boot_loads (booted : boot settings bytes world = .ok (m, journeys)) :
    ∃ image, Machine.Loads settings world image m := by
  obtain ⟨_, _, booted⟩ := Machine.bound booted
  obtain ⟨image, _, booted⟩ := Machine.bound booted
  obtain ⟨fresh, started, booted⟩ := Machine.bound booted
  refine ⟨image, fresh, journeys, started, ?_⟩
  split at booted
  · rename_i loaded
    cases booted
    exact loaded
  · contradiction
  · contradiction

theorem boot_of_loads {bytes : ByteArray} (decoded : Image.decode bytes.data.toList = .ok image)
    (loads : Machine.Loads settings world image m) :
    ∃ journeys, boot settings (.ok bytes) world = .ok (m, journeys) := by
  obtain ⟨fresh, journeys, started, loaded⟩ := loads
  refine ⟨journeys, ?_⟩
  simp only [boot, Except.mapError, Bind.bind, Except.bind, decoded, started, loaded]
  rfl

section Status

variable (booted : boot settings bytes world = .ok (m, journeys))
  (asked : (after (m.run (Run.runMain args))).handlers.exitRequest = some n)
include booted asked

theorem run_exits : m.run (Run.runMain args) =
    .error (.fatal (.exit n.toInt32)) (after (m.run (Run.runMain args))) := by
  obtain ⟨image, loads⟩ := boot_loads booted
  have going : m.handlers.exitRequest = none := congrArg (·.2.1.exitRequest) loads.standing
  have ends : Run.Ends 0 m (m.run (Run.runMain args)) :=
    Run.orderly_runMain (Machine.callAt_orderly _ _) args
  exact ends.exits going asked

theorem status_of_exit (path : String) : (execute (.run path args settings) bytes world).status =
    (Fault.exit n.toInt32).exitStatus := by
  simp only [execute, booted]
  rw [run_exits booted asked]
  rfl

end Status

/-- Exits decide the status. An exit that is served notes the numeral its operand stands for. A run
in which one was noted ends with it, whatever handlers, defaults, guards and calls it was asked for
in; and unless the numeral is other than zero with its low 32 bits zero, the status is zero exactly
if the numeral is, and otherwise its remainder by 256, or one where that is zero. -/
theorem exit_decides_status (path : String)
    (booted : boot settings bytes world = .ok (m, journeys))
    (asked : (after (m.run (Run.runMain args))).handlers.exitRequest = some n) :
    (∀ env m₁ m₂ k, (Run.nextValue >>= Run.toNumeral) env m₁ = .ok k m₂ →
      Run.serve .exit env m₁ =
        .error (.fatal (.exit k.toInt32)) { m₂ with handlers := m₂.handlers.exit k }) ∧
    m.run (Run.runMain args) =
      .error (.fatal (.exit n.toInt32)) (after (m.run (Run.runMain args))) ∧
    (n = 0 ∨ n.toInt32 ≠ 0 →
      let status := (execute (.run path args settings) bytes world).status
      (status = 0 ↔ n = 0) ∧ (n ≠ 0 → (status.toNat : Int) = Fault.narrowed n)) := by
  refine ⟨fun _ _ _ _ coerced => Run.serve_exit coerced, run_exits booted asked, fun kept => ?_⟩
  rw [status_of_exit booted asked path]
  by_cases zero : n = 0
  · have cut : n.toInt32 = 0 := by
      rw [zero]
      rfl
    constructor
    · simp only [zero, iff_true]
      exact Fault.exitStatus_zero rfl
    · exact fun other => absurd zero other
  · have status := Fault.exitStatus_nonzero (kept.resolve_left zero)
    constructor
    · simp only [zero, iff_false]
      intro success
      rw [success] at status
      exact Fault.narrowed_ne_zero status.symm
    · exact fun _ => status

/-- The entry installs a handler and calls a journey that exits with a numeral. -/
def quitting (n : Int64) : Image where
  journeys := [
    { name := "main"
      patterns := [{ block := { registers := 3, constants := [.journey 1], code := [
        Opcode.tryCatch.word, 12, 1, Opcode.cload.word, 0, 0, Opcode.call.word, 0, 0, 2,
        Opcode.ret.word, 2, Opcode.ret.word, 1] } }] },
    { name := "quit"
      patterns := [{ block := { registers := 1, constants := [.numeral n], code := [
        Opcode.cload.word, 0, 0, Opcode.int.word, Interrupt.exit.word, 0] } }] }]
  main := some 0

def asks (n : Int64) (m : Machine) : Bool :=
  (after (m.run (Run.runMain []))).handlers.exitRequest = some n

def quittingBytes (n : Int64) : ByteArray := ⟨(quitting n).encode.toArray⟩

theorem quitting_boots (n : Int64)
    (checked : Machine.loadsSuch Machine.narrow {} (quitting n) (asks n) = true) :
    ∃ m journeys, boot Machine.narrow (.ok (quittingBytes n)) {} = .ok (m, journeys) ∧
      (after (m.run (Run.runMain []))).handlers.exitRequest = some n := by
  have short : "main".utf8ByteSize < 2 ^ 64 ∧ "quit".utf8ByteSize < 2 ^ 64 := by decide
  have measured : (quitting n).Measured := by
    simp at short
    simp [short, quitting, Image.measured_iff, Image.Journey.measured_iff,
      Image.Pattern.measured_iff, Image.Codeblock.measured_iff, Image.Constant.Measured,
      Image.Counted, Image.Spelled]
  have decoded : Image.decode (quittingBytes n).data.toList = .ok (quitting n) := by
    have read := Image.recovers_image measured []
    rw [List.append_nil] at read
    simp only [quittingBytes, Image.decode, read]
  obtain ⟨m, loads, asked⟩ := Machine.loads_of Machine.narrow {} (quitting n) (asks n) checked
  obtain ⟨journeys, booted⟩ := boot_of_loads decoded loads
  exact ⟨m, journeys, booted, of_decide_eq_true asked⟩

/-- The handler of the entry does not catch an exit with 256, whose status is one. -/
theorem quitting_fails :
    ((execute (.run "" [] Machine.narrow) (.ok (quittingBytes 256)) {}).status.toNat : Int) = 1 := by
  obtain ⟨m, journeys, booted, asked⟩ := quitting_boots 256 (by decide +kernel)
  obtain ⟨_, _, decided⟩ := exit_decides_status "" booted asked
  exact (decided (.inr (by decide))).2 (by decide)

/-- An exit with a numeral other than zero is a success if its low 32 bits are zero. -/
theorem wide_exit_succeeds : ∃ m journeys,
    boot Machine.narrow (.ok (quittingBytes 4294967296)) {} = .ok (m, journeys) ∧
    (after (m.run (Run.runMain []))).handlers.exitRequest = some 4294967296 ∧
    (execute (.run "" [] Machine.narrow) (.ok (quittingBytes 4294967296)) {}).status = 0 := by
  obtain ⟨m, journeys, booted, asked⟩ := quitting_boots 4294967296 (by decide +kernel)
  refine ⟨m, journeys, booted, asked, ?_⟩
  rw [status_of_exit booted asked ""]
  exact Fault.exitStatus_zero rfl

end Command

end JourneyMachine
