import Mathlib.Algebra.BigOperators.Group.List.Basic
import Mathlib.Algebra.Order.Floor.Ring
import Mathlib.Algebra.Order.Ring.Rat
import Mathlib.Data.Rat.Floor
import Mathlib.Tactic.Linarith
import Mathlib.Tactic.NormNum
import Resampler.Scalar.Rational

/-!
Exact arithmetic.

Over the rationals the operations that geometry is computed with are those of an ordered field,
with its floors and ceilings.
-/

namespace Resampler

namespace Scalar

@[simp] theorem lt_rat (x y : ℚ) : lt x y = decide (x < y) := rfl

@[simp] theorem le_rat (x y : ℚ) : le x y = decide (x ≤ y) := rfl

@[simp] theorem eq_rat (x y : ℚ) : eq x y = decide (x = y) := rfl

@[simp] theorem isFinite_rat (x : ℚ) : isFinite x = true := rfl

@[simp] theorem ofInt_rat (n : Int) : (ofInt n : ℚ) = n := rfl

@[simp] theorem ofNat_rat (n : Nat) : (ofNat n : ℚ) = n := Int.cast_natCast n

@[simp] theorem floor_rat (x : ℚ) : floor x = ⌊x⌋ := rfl

@[simp] theorem ceil_rat (x : ℚ) : ceil x = ⌈x⌉ := (Rat.ceil_eq_neg_floor_neg x).trans rfl

@[simp] theorem round_rat (x : ℚ) : round x = Rational.round x := rfl

@[simp] theorem abs_rat (x : ℚ) : abs x = |x| := by
  rw [abs, lt_rat]
  norm_num
  split
  · exact (abs_of_neg ‹_›).symm
  · exact (abs_of_nonneg (not_lt.mp ‹_›)).symm

@[simp] theorem least_rat (x y : ℚ) : least x y = min x y := by
  rw [least, le_rat, min_def]
  simp

@[simp] theorem sum_rat (xs : List ℚ) : sum xs = xs.sum := by
  rw [sum, List.sum_eq_foldl]
  norm_num

end Scalar

namespace Rational

/-! Literals with a point, as the numbers that they stand for. -/

theorem zero_eq : (0.0 : ℚ) = 0 := by norm_num

theorem half_eq : (0.5 : ℚ) = 1 / 2 := by norm_num

theorem one_eq : (1.0 : ℚ) = 1 := by norm_num

theorem two_eq : (2.0 : ℚ) = 2 := by norm_num

theorem round_of_nonneg {x : ℚ} (h : 0 ≤ x) : round x = ⌊x + 1 / 2⌋ := if_pos h

theorem round_of_neg {x : ℚ} (h : x < 0) : round x = -⌊-x + 1 / 2⌋ := if_neg (not_le.mpr h)

/-- Rounding is off by a half at most. -/
theorem abs_round_sub_le (x : ℚ) : |(round x : ℚ) - x| ≤ 1 / 2 := by
  rcases le_or_gt 0 x with h | h
  · have hlo := Int.floor_le (x + 1 / 2)
    have hhi := Int.lt_floor_add_one (x + 1 / 2)
    rw [round_of_nonneg h, abs_le]
    constructor <;> linarith
  · have hlo := Int.floor_le (-x + 1 / 2)
    have hhi := Int.lt_floor_add_one (-x + 1 / 2)
    rw [round_of_neg h, Int.cast_neg, abs_le]
    constructor <;> linarith

/-- What is less than a half goes to zero. -/
theorem round_eq_zero {x : ℚ} (h : |x| < 1 / 2) : round x = 0 := by
  have hround := abs_round_sub_le x
  rw [abs_le] at hround
  rw [abs_lt] at h
  have hlo : (-1 : ℚ) < round x := by linarith
  have hhi : (round x : ℚ) < 1 := by linarith
  have hlo' : -1 < round x := by exact_mod_cast hlo
  have hhi' : round x < 1 := by exact_mod_cast hhi
  omega

/-- Rounding is off by no more than the number itself. -/
theorem abs_round_sub_le_abs (x : ℚ) : |(round x : ℚ) - x| ≤ |x| := by
  rcases lt_or_ge |x| (1 / 2) with h | h
  · rw [round_eq_zero h, Int.cast_zero, zero_sub, abs_neg]
  · exact (abs_round_sub_le x).trans h

/-- Rounding makes no number more than twice as large. -/
theorem abs_round_le (x : ℚ) : |(round x : ℚ)| ≤ 2 * |x| := by
  have hoff := abs_round_sub_le_abs x
  have htriangle := abs_sub_abs_le_abs_sub (round x : ℚ) x
  linarith

end Rational

end Resampler
