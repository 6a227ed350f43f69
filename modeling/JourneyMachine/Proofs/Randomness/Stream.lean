import Mathlib.Logic.Function.Iterate
import JourneyMachine.Random

/-! The stream of random words. A shift is linear over xor, and repeated often enough it takes every
word to zero; so no word but zero is equal to its own shift, and to xor a word with its shift is
injective. The three shifts that lead from one state to the next therefore never merge two states,
and they lead only zero to zero. -/

namespace JourneyMachine.Random

def drawn (n : Nat) (r : Random) : Random := (fun r => r.next.2)^[n] r

variable {x k : UInt64} {r : Random} {n : Nat}

section Shifts

theorem injective_xor_shift {shift : UInt64 → UInt64}
    (linear : ∀ x y, shift (x ^^^ y) = shift x ^^^ shift y) (vanishes : ∀ x, shift^[n] x = 0) :
    Function.Injective fun x => x ^^^ shift x := by
  intro x y same
  have equal : x ^^^ shift x = y ^^^ shift y := same
  -- What two such words differ in is its own shift, so also its last one, and that is zero.
  have fixed : shift (x ^^^ y) = x ^^^ y :=
    calc shift (x ^^^ y)
      _ = shift x ^^^ shift y := linear x y
      _ = x ^^^ (x ^^^ shift x) ^^^ shift y := by rw [← UInt64.xor_assoc x x, UInt64.xor_self,
            UInt64.zero_xor]
      _ = x ^^^ (y ^^^ shift y) ^^^ shift y := by rw [equal]
      _ = x ^^^ y := by rw [UInt64.xor_assoc, UInt64.xor_assoc y, UInt64.xor_self, UInt64.xor_zero]
  have zero : x ^^^ y = 0 := (Function.iterate_fixed fixed n).symm.trans (vanishes (x ^^^ y))
  exact UInt64.xor_eq_zero_iff.mp zero

theorem toBitVec_shiftRight_iterate :
    ((· >>> k)^[n] x).toBitVec = x.toBitVec >>> (n * (k.toNat % 64)) := by
  induction n with
  | zero => simp
  | succ n ih =>
    rw [Function.iterate_succ_apply', UInt64.toBitVec_shiftRight, ih, Nat.succ_mul,
      BitVec.shiftRight_add]
    simp

theorem toBitVec_shiftLeft_iterate :
    ((· <<< k)^[n] x).toBitVec = x.toBitVec <<< (n * (k.toNat % 64)) := by
  induction n with
  | zero => simp
  | succ n ih =>
    rw [Function.iterate_succ_apply', UInt64.toBitVec_shiftLeft, ih, Nat.succ_mul,
      BitVec.shiftLeft_add]
    simp

theorem injective_xor_shiftRight (positive : 0 < k.toNat % 64) :
    Function.Injective fun x : UInt64 => x ^^^ x >>> k := by
  refine injective_xor_shift (n := 64) (fun x y => UInt64.shiftRight_xor) fun x => ?_
  apply UInt64.toBitVec_inj.mp
  rw [toBitVec_shiftRight_iterate]
  exact BitVec.ushiftRight_eq_zero (Nat.le_mul_of_pos_right 64 positive)

theorem injective_xor_shiftLeft (positive : 0 < k.toNat % 64) :
    Function.Injective fun x : UInt64 => x ^^^ x <<< k := by
  refine injective_xor_shift (n := 64) (fun x y => UInt64.shiftLeft_xor) fun x => ?_
  apply UInt64.toBitVec_inj.mp
  rw [toBitVec_shiftLeft_iterate]
  exact BitVec.shiftLeft_eq_zero (Nat.le_mul_of_pos_right 64 positive)

end Shifts

section States

theorem scramble_injective : Function.Injective scramble := by
  have first : Function.Injective fun x : UInt64 => x ^^^ x >>> 12 :=
    injective_xor_shiftRight (by decide)
  have second : Function.Injective fun x : UInt64 => x ^^^ x <<< 25 :=
    injective_xor_shiftLeft (by decide)
  have third : Function.Injective fun x : UInt64 => x ^^^ x >>> 27 :=
    injective_xor_shiftRight (by decide)
  exact third.comp (second.comp first)

theorem scramble_zero : scramble 0 = 0 := by decide

theorem scramble_ne_zero (nonzero : x ≠ 0) : scramble x ≠ 0 :=
  scramble_zero ▸ scramble_injective.ne nonzero

theorem next_injective : Function.Injective fun r : Random => r.next.2 := by
  intro r s same
  have states : scramble r.state = scramble s.state := congrArg state same
  cases r
  cases s
  exact congrArg mk (scramble_injective states)

theorem drawn_succ : r.drawn (n + 1) = (r.drawn n).next.2 := Function.iterate_succ_apply' ..

theorem drawn_add (first : Nat) : (r.drawn first).drawn n = r.drawn (n + first) :=
  (Function.iterate_add_apply ..).symm

theorem drawn_injective (n : Nat) : Function.Injective (drawn n) := next_injective.iterate n

theorem seeded_ne_zero (seed : UInt64) : (seeded seed).state ≠ 0 := by
  unfold seeded
  split
  · decide
  · assumption

theorem drawn_ne_zero (nonzero : r.state ≠ 0) (n : Nat) : (r.drawn n).state ≠ 0 := by
  induction n with
  | zero => exact nonzero
  | succ n ih =>
    rw [drawn_succ]
    exact scramble_ne_zero ih

end States

section Numerals

/-- A numeral has all bits of a word but the lowest one. -/
theorem toInt_nextNumeral (r : Random) : r.nextNumeral.1.toInt = (r.next.1.toNat / 2 : Nat) := by
  have shifted : (r.next.1 >>> 1).toNat = r.next.1.toNat / 2 := by
    simp [UInt64.toNat_shiftRight, Nat.shiftRight_eq_div_pow]
  have less : r.next.1.toNat < 2 ^ 64 := r.next.1.toNat_lt
  have small : 2 * (r.next.1 >>> 1).toNat < 2 ^ 64 := by omega
  rw [← shifted]
  exact BitVec.toInt_eq_toNat_of_lt small

theorem nextNumeral_nonneg (r : Random) : 0 ≤ r.nextNumeral.1 := by
  rw [Int64.le_iff_toInt_le, toInt_nextNumeral]
  exact Int.natCast_nonneg _

end Numerals

end JourneyMachine.Random
