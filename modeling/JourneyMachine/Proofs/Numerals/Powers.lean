import Mathlib.Algebra.Order.Field.Power
import Mathlib.Data.Int.ModEq
import Mathlib.Data.Rat.Floor
import Mathlib.RingTheory.Coprime.Lemmas
import Mathlib.RingTheory.Int.Basic
import Mathlib.Tactic.Linarith
import Mathlib.Tactic.Ring
import JourneyMachine.Machine.Operators

/-! The power operator on numerals. Repeated squaring gives the power reduced to 64 bits. Exponents
that a 32-bit word cannot hold are cut off at the greatest one it can, which shows in the power of an
odd base unless what was cut off leaves the base at one. Negative exponents give the reciprocal of the
power, truncated. -/

namespace JourneyMachine

def truncate (q : ℚ) : Int := if 0 ≤ q then ⌊q⌋ else ⌈q⌉

namespace Numeral

/-- The exponents whose power of a base is the one that the cut-off exponent gives. -/
def Exact (base : Int64) (exponent : Nat) : Prop :=
  exponent ≤ greatestExponent ∨ 2 ∣ base.toInt ∨
    base.toInt ^ (exponent - greatestExponent) ≡ 1 [ZMOD 2 ^ 64]

variable {base exponent : Int64} {n : Nat}

section Reduction

theorem bmod_eq_bmod_iff {x y : Int} :
    x.bmod (2 ^ 64) = y.bmod (2 ^ 64) ↔ x ≡ y [ZMOD 2 ^ 64] := by
  rw [eq_comm, Int.bmod_eq_bmod_iff_bmod_sub_eq_zero, ← Int.dvd_iff_bmod_eq_zero,
    Int.modEq_iff_dvd]
  rfl

theorem toInt_eq_bmod_iff {a : Int64} {x : Int} :
    a.toInt = x.bmod (2 ^ 64) ↔ a.toInt ≡ x [ZMOD 2 ^ 64] := by
  have inside : a.toInt.bmod (2 ^ 64) = a.toInt := Int64.toInt_bmod a
  rw [← bmod_eq_bmod_iff, inside]

theorem toInt_mul_modEq (a b : Int64) : (a * b).toInt ≡ a.toInt * b.toInt [ZMOD 2 ^ 64] :=
  toInt_eq_bmod_iff.mp (Int64.toInt_mul a b)

theorem one_modEq (base : Int64) : (1 : Int64).toInt ≡ base.toInt ^ 0 [ZMOD 2 ^ 64] := by
  rw [Int64.toInt_one, pow_zero]

/-- The product of so many equal factors, wrapped after each of them. -/
theorem product_modEq (base : Int64) (n : Nat) :
    ((base * ·)^[n] 1).toInt ≡ base.toInt ^ n [ZMOD 2 ^ 64] := by
  induction n with
  | zero => exact one_modEq base
  | succ n ih =>
    rw [Function.iterate_succ_apply', pow_succ' base.toInt]
    exact (toInt_mul_modEq _ _).trans (ih.mul_left _)

theorem square_modEq {half : Int64} {k : Nat}
    (power : half.toInt ≡ (base * base).toInt ^ k [ZMOD 2 ^ 64]) :
    half.toInt ≡ base.toInt ^ (2 * k) [ZMOD 2 ^ 64] := by
  rw [pow_mul, pow_two]
  exact power.trans ((toInt_mul_modEq base base).pow k)

/-- The power of the square to half the exponent, with one more factor if the exponent is odd. -/
theorem wrappingPower_modEq (base : Int64) (n : Nat) :
    (wrappingPower base n).toInt ≡ base.toInt ^ n [ZMOD 2 ^ 64] := by
  fun_induction wrappingPower base n with
  | case1 base => exact one_modEq base
  | case2 base n some half odd ih =>
    have whole : n = 2 * (n / 2) + 1 := by omega
    calc (base * half).toInt
      _ ≡ base.toInt * half.toInt [ZMOD 2 ^ 64] := toInt_mul_modEq base half
      _ ≡ base.toInt * base.toInt ^ (2 * (n / 2)) [ZMOD 2 ^ 64] := (square_modEq ih).mul_left _
      _ = base.toInt ^ n := by rw [← pow_succ', ← whole]
  | case3 base n some half even ih =>
    have whole : 2 * (n / 2) = n := by omega
    have halved := square_modEq ih
    rwa [whole] at halved

/-- Exponents from zero are cut off and then counted down by squaring. -/
theorem power_modEq (base : Int64) (natural : exponent.toInt = n) :
    (power base exponent).toInt ≡ base.toInt ^ min n greatestExponent [ZMOD 2 ^ 64] := by
  by_cases zero : exponent = 0
  · subst zero
    have none : n = 0 := by
      rw [Int64.toInt_zero] at natural
      omega
    rw [none]
    exact one_modEq base
  · have counted : exponent.toInt.toNat = n := by omega
    have positive : ¬ exponent.toInt < 0 := by omega
    simp only [power, zero, positive, if_false, counted]
    exact wrappingPower_modEq base (min n greatestExponent)

end Reduction

section Cutting

/-- Powers of an even number vanish once the exponent has as many units as a numeral has bits. -/
theorem even_vanishes {b : Int} (even : 2 ∣ b) (large : 64 ≤ n) : b ^ n ≡ 0 [ZMOD 2 ^ 64] :=
  Int.modEq_zero_iff_dvd.mpr ((pow_dvd_pow_of_dvd even 64).trans (pow_dvd_pow b large))

/-- Powers of an odd number can be cancelled. -/
theorem odd_cancels {b : Int} (odd : ¬ 2 ∣ b) (k n : Nat) :
    b ^ k ≡ b ^ (k + n) [ZMOD 2 ^ 64] ↔ b ^ n ≡ 1 [ZMOD 2 ^ 64] := by
  have coprime : IsCoprime (2 ^ 64 : Int) (b ^ k) :=
    ((Int.prime_two.coprime_iff_not_dvd.mpr odd).pow_left).pow_right
  have factored : b ^ (k + n) - b ^ k = b ^ k * (b ^ n - 1) := by ring
  calc b ^ k ≡ b ^ (k + n) [ZMOD 2 ^ 64]
    _ ↔ (2 ^ 64 : Int) ∣ b ^ k * (b ^ n - 1) := by rw [Int.modEq_iff_dvd, factored]
    _ ↔ (2 ^ 64 : Int) ∣ b ^ n - 1 := ⟨coprime.dvd_of_dvd_mul_left, fun h => h.mul_left _⟩
    _ ↔ b ^ n ≡ 1 [ZMOD 2 ^ 64] := by rw [← Int.modEq_iff_dvd, Int.modEq_comm]

/-- Cutting off the exponent keeps the reduced power exactly at the exact exponents. -/
theorem cut_iff (base : Int64) (n : Nat) :
    base.toInt ^ min n greatestExponent ≡ base.toInt ^ n [ZMOD 2 ^ 64] ↔ Exact base n := by
  by_cases word : n ≤ greatestExponent
  · simp [Exact, word]
  · have many : 64 ≤ greatestExponent := by decide
    rw [Nat.min_eq_right (by omega)]
    by_cases even : 2 ∣ base.toInt
    · have vanish := (even_vanishes even many).trans (even_vanishes (n := n) even (by omega)).symm
      exact iff_of_true vanish (.inr (.inl even))
    · have wide : greatestExponent + (n - greatestExponent) = n := by omega
      have cancelled := odd_cancels even greatestExponent (n - greatestExponent)
      rw [wide] at cancelled
      rw [cancelled, Exact, or_iff_right word, or_iff_right even]

end Cutting

section Reciprocals

theorem truncate_small {q : ℚ} (small : |q| < 1) : truncate q = 0 := by
  obtain ⟨above, below⟩ := abs_lt.mp small
  unfold truncate
  split
  · exact Int.floor_eq_zero_iff.mpr ⟨‹_›, below⟩
  · rename_i negative
    rw [Int.ceil_eq_zero_iff]
    constructor <;> linarith

theorem truncate_intCast (k : Int) : truncate k = k := by
  unfold truncate
  split
  · exact Int.floor_intCast k
  · exact Int.ceil_intCast k

theorem zpow_small {b e : Int} (large : 1 < |b|) (negative : e < 0) : |(b : ℚ) ^ e| < 1 := by
  have greater : (1 : ℚ) < |(b : ℚ)| := by exact_mod_cast large
  rw [abs_zpow]
  exact zpow_lt_one_of_neg₀ greater negative

theorem power_negative (negative : exponent.toInt < 0) :
    power base exponent = if base = 1 then 1 else if base = -1 then
      if exponent.toInt % 2 = 0 then 1 else -1 else 0 := by
  have other : exponent ≠ 0 := by
    rintro rfl
    exact absurd negative (by decide)
  simp only [power, other, negative, if_false, if_true]

/-- For a negative exponent the power is one over a product of factors that are all one, all minus
one, or all greater, and only the first two leave anything before the point. -/
theorem power_reciprocal (negative : exponent.toInt < 0) (some : base ≠ 0) :
    (power base exponent).toInt = truncate ((base.toInt : ℚ) ^ exponent.toInt) := by
  rw [power_negative negative]
  by_cases one : base = 1
  · subst one
    rw [if_pos rfl, Int64.toInt_one, Int.cast_one, one_zpow]
    exact (truncate_intCast 1).symm
  · rw [if_neg one]
    by_cases minus : base = -1
    · have value : (((-1 : Int64).toInt : Int) : ℚ) = -1 := rfl
      subst minus
      rw [if_pos rfl, value]
      split
      · rename_i even
        rw [(Int.even_iff.mpr even).neg_one_zpow]
        exact (truncate_intCast 1).symm
      · rename_i odd
        rw [(Int.odd_iff.mpr (by omega)).neg_one_zpow]
        exact (truncate_intCast (-1)).symm
    · have large : 1 < |base.toInt| := by
        have other : base.toInt ≠ 0 ∧ base.toInt ≠ 1 ∧ base.toInt ≠ -1 :=
          ⟨fun h => some (Int64.toInt_inj.mp h), fun h => one (Int64.toInt_inj.mp h),
            fun h => minus (Int64.toInt_inj.mp h)⟩
        rw [Int.abs_eq_natAbs]
        omega
      rw [if_neg minus, truncate_small (zpow_small large negative)]
      rfl

end Reciprocals

/-- The result is a numeral: for exponents from zero the power to the cut-off exponent, reduced to 64
bits, which is the power that repeated multiplication gives exactly at the exact exponents; for
negative ones the reciprocal of the power, truncated. -/
theorem powers_wrap (base exponent : Int64) (env : Env) (m : Machine) :
    ∃ result, Run.pow (.numeral base) (.numeral exponent) env m = .ok (.numeral result) m ∧
      (∀ n : Nat, exponent.toInt = n →
        result.toInt = (base.toInt ^ min n greatestExponent).bmod (2 ^ 64) ∧
        ((base * ·)^[n] 1).toInt = (base.toInt ^ n).bmod (2 ^ 64) ∧
        (result = (base * ·)^[n] 1 ↔ Exact base n)) ∧
      (exponent.toInt < 0 → base ≠ 0 →
        result.toInt = truncate ((base.toInt : ℚ) ^ exponent.toInt)) := by
  refine ⟨power base exponent, rfl, fun n natural => ?_, fun negative some =>
    power_reciprocal negative some⟩
  have cut := power_modEq base natural
  have product := product_modEq base n
  refine ⟨toInt_eq_bmod_iff.mpr cut, toInt_eq_bmod_iff.mpr product, ?_⟩
  rw [← cut_iff, ← Int64.toInt_inj, toInt_eq_bmod_iff.mpr cut, toInt_eq_bmod_iff.mpr product]
  exact bmod_eq_bmod_iff

/-- Minus three to the power 41 wraps around, two to the power of two to the 40th is cut off but
vanishes either way, and minus one keeps its sign under an odd negative exponent. -/
theorem powers_wrapped :
    Exact 2 1099511627776 ∧ ∀ env m,
    Run.pow (.numeral (-3)) (.numeral 41) env m = .ok (.numeral 420491770248316829) m ∧
    Run.pow (.numeral 2) (.numeral 1099511627776) env m = .ok (.numeral 0) m ∧
    Run.pow (.numeral (-1)) (.numeral (-3)) env m = .ok (.numeral (-1)) m := by
  have exact : Exact 2 1099511627776 := .inr (.inl ⟨1, rfl⟩)
  refine ⟨exact, fun env m => ⟨?_, ?_, ?_⟩⟩
  · obtain ⟨result, done, natural, -⟩ := powers_wrap (-3) 41 env m
    have value : result.toInt = (420491770248316829 : Int64).toInt := (natural 41 rfl).1
    rw [done, Int64.toInt_inj.mp value]
  · obtain ⟨result, done, natural, -⟩ := powers_wrap 2 1099511627776 env m
    obtain ⟨-, product, same⟩ := natural 1099511627776 rfl
    have vanishes : (2 : Int) ^ 1099511627776 ≡ 0 [ZMOD 2 ^ 64] :=
      even_vanishes ⟨1, rfl⟩ (by decide)
    have value : result.toInt = (0 : Int64).toInt := by
      rw [same.mpr exact, product]
      exact bmod_eq_bmod_iff.mpr vanishes
    rw [done, Int64.toInt_inj.mp value]
  · obtain ⟨result, done, -, negative⟩ := powers_wrap (-1) (-3) env m
    have odd : Odd (-3 : Int) := ⟨-2, rfl⟩
    have value : result.toInt = truncate (((-1 : Int) : ℚ) ^ (-3 : Int)) :=
      negative (by decide) (by decide)
    rw [Int.cast_neg, Int.cast_one, odd.neg_one_zpow] at value
    have minus : result.toInt = (-1 : Int64).toInt := value.trans (truncate_intCast (-1))
    rw [done, Int64.toInt_inj.mp minus]

theorem power_minus_one {n : Nat} (natural : exponent.toInt = n)
    (odd : Odd (min n greatestExponent)) : power (-1) exponent = -1 := by
  have cut := toInt_eq_bmod_iff.mpr (power_modEq (-1) natural)
  have base : (-1 : Int64).toInt = -1 := rfl
  rw [base, odd.neg_one_pow] at cut
  exact Int64.toInt_inj.mp cut

/-- Minus one to the power of two to the 32nd is one, as that is even; the operator cuts the exponent
off at the odd number before it. -/
theorem minus_one_flips :
    ((-1 : Int) ^ 4294967296).bmod (2 ^ 64) = 1 ∧ ∀ env m,
      Run.pow (.numeral (-1)) (.numeral 4294967296) env m = .ok (.numeral (-1)) m := by
  have even : Even 4294967296 := ⟨2147483648, rfl⟩
  have odd : Odd (min 4294967296 greatestExponent) := ⟨2147483647, rfl⟩
  have flipped : power (-1) 4294967296 = -1 := power_minus_one rfl odd
  constructor
  · rw [even.neg_one_pow]
    rfl
  · intro env m
    exact congrArg (EStateM.Result.ok · m) (congrArg Value.numeral flipped)

end Numeral

end JourneyMachine
