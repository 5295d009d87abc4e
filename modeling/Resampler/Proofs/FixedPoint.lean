import Mathlib.Algebra.BigOperators.Ring.Finset
import Mathlib.Algebra.Order.BigOperators.Group.Finset
import Mathlib.Algebra.Order.Group.MinMax
import Mathlib.Data.Rat.Cast.Order
import Mathlib.Tactic.Linarith
import Mathlib.Tactic.NormNum
import Mathlib.Tactic.Positivity
import Mathlib.Tactic.Ring
import Resampler.FixedPoint

/-!
The two roundings of the fixed-point arithmetic.

A sum of samples times weights loses fractional bits twice, once in each pass. What is
a whole number without these bits comes through both passes as it is (`dropBits_mul_pow`);
otherwise each pass is off by at most half a unit of what it keeps (`abs_dropBits_sub_le`). In
the second pass the errors of the rows of the window add up, each times the size of its
weight, and then the result is moved into the range of samples, which brings no two
numbers further apart.
-/

namespace Resampler

namespace Word

/-- The integers that a signed 32-bit word holds. -/
def Fits32 (x : Int) : Prop := -2147483648 ≤ x ∧ x < 2147483648

/-- The integers that a signed 64-bit word holds. -/
def Fits64 (x : Int) : Prop := -9223372036854775808 ≤ x ∧ x < 9223372036854775808

instance (x : Int) : Decidable (Fits32 x) := inferInstanceAs (Decidable (_ ∧ _))

instance (x : Int) : Decidable (Fits64 x) := inferInstanceAs (Decidable (_ ∧ _))

theorem Fits32.signed32_eq {x : Int} (h : Fits32 x) : signed32 x = x :=
  signed32_of_fits h.1 h.2

theorem Fits64.signed64_eq {x : Int} (h : Fits64 x) : signed64 x = x :=
  signed64_of_fits h.1 h.2

end Word

namespace FixedPoint

/-- Half of what dropping bits drops at most. -/
def half (shift : Nat) : Int := 2 ^ (shift - 1)

theorem dropBits_eq {acc : Int} {shift : Nat} (h : Word.Fits64 (acc + half shift)) :
    dropBits acc shift = (acc + half shift) / 2 ^ shift := by
  unfold dropBits
  exact congrArg (· / (2 : Int) ^ shift) h.signed64_eq

theorem two_mul_half {shift : Nat} (hpos : 0 < shift) : 2 * half shift = 2 ^ shift := by
  obtain ⟨n, rfl⟩ := Nat.exists_eq_succ_of_ne_zero hpos.ne'
  rw [half, Nat.succ_sub_one, pow_succ]
  ring

theorem half_pos (shift : Nat) : 0 < half shift := by
  unfold half
  positivity

theorem mul_pow_add_half_ediv (v : Int) {shift : Nat} (hpos : 0 < shift) :
    (v * 2 ^ shift + half shift) / 2 ^ shift = v := by
  have htwo := two_mul_half hpos
  have hhalf := half_pos shift
  rw [Int.add_comm, Int.add_mul_ediv_right _ _ (by omega), Int.ediv_eq_zero_of_lt hhalf.le (by omega),
    Int.zero_add]

/-- A multiple of what is dropped loses nothing. -/
theorem dropBits_mul_pow {v : Int} {shift : Nat} (hpos : 0 < shift)
    (h : Word.Fits64 (v * 2 ^ shift + half shift)) : dropBits (v * 2 ^ shift) shift = v :=
  (dropBits_eq h).trans (mul_pow_add_half_ediv v hpos)

/-- A value times one is the value and the bits that it keeps, times what the horizontal pass
drops. -/
theorem mul_one_eq_horizontal (v : Int) : v * one = v * 2 ^ guardBits * 2 ^ horizontalDrop := by
  simp only [one, guardBits, horizontalDrop, weightBits]
  ring

/-- A value and the bits that it kept, times one, are the value times what the vertical pass
drops. -/
theorem mul_one_eq_vertical (v : Int) : v * 2 ^ guardBits * one = v * 2 ^ verticalDrop := by
  simp only [one, guardBits, verticalDrop, weightBits]
  ring

/-- A sample times one keeps all of its bits in the horizontal pass. -/
theorem dropBits_horizontal {v : Nat} (hv : v ≤ 65535) :
    Word.signed32 (dropBits (v * one) horizontalDrop) = v * 2 ^ guardBits := by
  have hsmall : Word.Fits64 (v * 2 ^ guardBits * 2 ^ horizontalDrop + half horizontalDrop) := by
    simp only [Word.Fits64, half, guardBits, horizontalDrop, weightBits]
    omega
  rw [mul_one_eq_horizontal, dropBits_mul_pow (by decide) hsmall, Word.signed32_of_fits]
  · simp only [guardBits]
    omega
  · simp only [guardBits]
    omega

/-- A sample that has been kept, times one, comes out of the vertical pass. -/
theorem dropBits_vertical {v max : Nat} (hv : v ≤ max) (hmax : max ≤ 65535) :
    toSample (dropBits (v * 2 ^ guardBits * one) verticalDrop) max = v := by
  have hsmall : Word.Fits64 (v * 2 ^ verticalDrop + half verticalDrop) := by
    simp only [Word.Fits64, half, guardBits, verticalDrop, weightBits]
    omega
  rw [mul_one_eq_vertical, dropBits_mul_pow (by decide) hsmall, toSample]
  omega

/-- What is dropped is at most a half. -/
theorem abs_dropBits_sub_le {acc : Int} {shift : Nat} (hpos : 0 < shift)
    (h : Word.Fits64 (acc + half shift)) :
    |2 ^ shift * dropBits acc shift - acc| ≤ half shift := by
  have htwo := two_mul_half hpos
  have hlt := half_pos shift
  have hdiv := Int.mul_ediv_add_emod (acc + half shift) (2 ^ shift)
  have hlo := Int.emod_nonneg (acc + half shift) (show (2 : Int) ^ shift ≠ 0 by omega)
  have hhi := Int.emod_lt_of_pos (acc + half shift) (show 0 < (2 : Int) ^ shift by omega)
  rw [dropBits_eq h, abs_le]
  constructor <;> omega

/-- A sum of values that are off by at most `e` each is off by at most `e` times the sum of the
sizes of the weights. -/
theorem abs_sum_mul_sub_le {n : Nat} {w a b : Nat → Int} {e : Int}
    (h : ∀ r < n, |a r - b r| ≤ e) :
    |∑ r ∈ Finset.range n, w r * a r - ∑ r ∈ Finset.range n, w r * b r| ≤
      e * ∑ r ∈ Finset.range n, |w r| := by
  rw [← Finset.sum_sub_distrib, Finset.mul_sum]
  refine (Finset.abs_sum_le_sum_abs _ _).trans (Finset.sum_le_sum fun r hr => ?_)
  calc |w r * a r - w r * b r| = |w r| * |a r - b r| := by rw [← mul_sub, abs_mul]
    _ ≤ |w r| * e := mul_le_mul_of_nonneg_left (h r (Finset.mem_range.mp hr)) (abs_nonneg _)
    _ = e * |w r| := mul_comm _ _

/-- The number between 0 and `max` that is nearest to `x`. -/
def clamp (x : ℚ) (max : Nat) : ℚ := Max.max 0 (min x max)

theorem cast_toSample (v : Int) (max : Nat) : (toSample v max : ℚ) = clamp v max := by
  have hmax : ((toSample v max : Nat) : Int) = Max.max 0 (min v max) := by
    unfold toSample
    omega
  rw [clamp, ← Int.cast_natCast (toSample v max), hmax]
  push_cast
  rfl

/-- Moving two numbers into the range of samples does not take them apart. -/
theorem abs_clamp_sub_clamp_le (x y : ℚ) (max : Nat) : |clamp x max - clamp y max| ≤ |x - y| := by
  unfold clamp
  calc |Max.max 0 (min x max) - Max.max 0 (min y max)|
      ≤ Max.max |(0 : ℚ) - 0| |min x max - min y max| := abs_max_sub_max_le_max ..
    _ ≤ Max.max |(0 : ℚ) - 0| (Max.max |x - y| |(max : ℚ) - max|) :=
        max_le_max_left _ (abs_min_sub_min_le_max ..)
    _ = |x - y| := by simp

end FixedPoint

end Resampler
