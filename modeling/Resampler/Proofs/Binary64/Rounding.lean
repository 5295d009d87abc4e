import Resampler.Proofs.Numerals
import Resampler.Scalar.Binary64

/-!
What a double is rounded to.

An operation on doubles hands over a mantissa and an exponent, and tells where the exact result
lies after that mantissa (`Lies`). Rounding drops bits until the mantissa fits, and keeps of those
that it drops what is needed to know on which side of the middle the result lies. The outcome is as
near to the exact result as anything that a mantissa and an exponent can express (`RoundsTo`). An
exact result that can be expressed is therefore its own rounding, and rounding never goes past a
bound that can be expressed.
-/

namespace Resampler.Binary64

open Float.Model (Format totalExponent UnpackedFloat)
open Float.Model.UnpackedFloat

/-! ### Where a result lies -/

/-- `z` lies at the mantissa `m` or between it and the next one, as an accuracy tells. -/
def Lies (z : ℝ) (m : ℕ) : Accuracy → Prop
  | .exact => z = m
  | .inexact .lt => m < z ∧ z < m + 1 / 2
  | .inexact .eq => z = m + 1 / 2
  | .inexact .gt => m + 1 / 2 < z ∧ z < m + 1

section

variable {z : ℝ} {m : ℕ} {accuracy : Accuracy} {em : ExtendedMantissa}

theorem Lies.le (h : Lies z m accuracy) : m ≤ z := by
  match accuracy with
  | .exact => exact h.ge
  | .inexact .lt => exact h.1.le
  | .inexact .eq => exact (le_add_of_nonneg_right (by norm_num)).trans h.ge
  | .inexact .gt => exact (le_add_of_nonneg_right (by norm_num)).trans h.1.le

theorem Lies.lt (h : Lies z m accuracy) : z < m + 1 := by
  match accuracy with
  | .exact => exact h.trans_lt (lt_add_one _)
  | .inexact .lt => exact h.2.trans (by linarith)
  | .inexact .eq => exact h.trans_lt (by linarith)
  | .inexact .gt => exact h.2

theorem Lies.abs_sub_le (h : Lies z m accuracy) :
    |(accuracy.roundToNearestEven m : ℝ) - z| ≤ 1 / 2 := by
  rw [abs_le]
  match accuracy with
  | .exact =>
    have hz : z = m := h
    simp only [Accuracy.roundToNearestEven]
    constructor <;> linarith
  | .inexact .lt =>
    obtain ⟨hlo, hhi⟩ := h
    simp only [Accuracy.roundToNearestEven]
    constructor <;> linarith
  | .inexact .eq =>
    have hz : z = m + 1 / 2 := h
    have hparity : (m % 2 : ℕ) ≤ (1 : ℝ) := by exact_mod_cast Nat.le_of_lt_succ (m.mod_lt two_pos)
    have hnonneg : (0 : ℝ) ≤ (m % 2 : ℕ) := Nat.cast_nonneg _
    simp only [Accuracy.roundToNearestEven, Nat.cast_add]
    constructor <;> linarith
  | .inexact .gt =>
    obtain ⟨hlo, hhi⟩ := h
    simp only [Accuracy.roundToNearestEven, Nat.cast_add, Nat.cast_one]
    constructor <;> linarith

theorem lies_ofMantissaAndAccuracy (h : Lies z m accuracy) :
    Lies z (ExtendedMantissa.ofMantissaAndAccuracy m accuracy).mantissa
      (ExtendedMantissa.ofMantissaAndAccuracy m accuracy).accuracy := by
  match accuracy with
  | .exact => exact h
  | .inexact .lt => exact h
  | .inexact .eq => exact h
  | .inexact .gt => exact h

/-- The bit that is dropped says in which half of the next unit the number lies, and those dropped
before it whether it lies strictly inside. -/
theorem lies_shiftRightOne (h : Lies z em.mantissa em.accuracy) :
    Lies (z / 2) em.shiftRightOne.mantissa em.shiftRightOne.accuracy := by
  obtain ⟨m, roundBit, stickyBit⟩ := em
  have hsplit : ((m % 2 : ℕ) : ℝ) + 2 * ((m / 2 : ℕ) : ℝ) = m := by
    exact_mod_cast Nat.mod_add_div m 2
  rcases Nat.mod_two_eq_zero_or_one m with hparity | hparity
  · have hshift : ExtendedMantissa.shiftRightOne ⟨m, roundBit, stickyBit⟩ =
        ⟨m / 2, false, roundBit || stickyBit⟩ := by simp [ExtendedMantissa.shiftRightOne, hparity]
    rw [hparity, Nat.cast_zero, zero_add] at hsplit
    rw [hshift]
    match roundBit, stickyBit, h with
    | false, false, h => exact show z / 2 = _ by linarith [show z = m from h]
    | false, true, h => exact ⟨by linarith [h.1], by linarith [h.2]⟩
    | true, false, h =>
      have hz : z = m + 1 / 2 := h
      exact ⟨by linarith, by linarith⟩
    | true, true, h => exact ⟨by linarith [h.1], by linarith [h.2]⟩
  · have hshift : ExtendedMantissa.shiftRightOne ⟨m, roundBit, stickyBit⟩ =
        ⟨m / 2, true, roundBit || stickyBit⟩ := by simp [ExtendedMantissa.shiftRightOne, hparity]
    rw [hparity, Nat.cast_one] at hsplit
    rw [hshift]
    match roundBit, stickyBit, h with
    | false, false, h => exact show z / 2 = _ by linarith [show z = m from h]
    | false, true, h => exact ⟨by linarith [h.1], by linarith [h.2]⟩
    | true, false, h =>
      have hz : z = m + 1 / 2 := h
      exact ⟨by linarith, by linarith⟩
    | true, true, h => exact ⟨by linarith [h.1], by linarith [h.2]⟩

theorem lies_shiftRight (h : Lies z em.mantissa em.accuracy) (k : ℕ) :
    Lies (z / 2 ^ k) (em >>> k).mantissa (em >>> k).accuracy := by
  induction k with
  | zero =>
    rw [pow_zero, div_one]
    exact h
  | succ k ih =>
    have hstep := lies_shiftRightOne ih
    rw [div_div, ← pow_succ] at hstep
    exact hstep

end

/-! ### What it is rounded to -/

/-- With the exponent `e`, the mantissa `z` has all the places of a mantissa, or as many as there
are down to the least exponent. -/
structure Tight (z : ℝ) (e : ℤ) : Prop where
  lt : z < 2 ^ 53
  le_exponent : -1074 ≤ e
  full : e = -1074 ∨ 2 ^ 52 ≤ z

/-- Of the numbers that a mantissa and an exponent can express, none is nearer to `x` than `v`. -/
structure RoundsTo (x v : ℝ) : Prop where
  expressed : ∃ (n : ℕ) (f : ℤ), n < 2 ^ 53 ∧ -1074 ≤ f ∧ v = n * 2 ^ f
  nearest : ∀ (n : ℕ) (f : ℤ), n < 2 ^ 53 → -1074 ≤ f → |v - x| ≤ |n * 2 ^ f - x|

section

variable {x y v w : ℝ} (h : RoundsTo x v)
include h

theorem RoundsTo.le_of_le (n : ℕ) (f : ℤ) (hn : n < 2 ^ 53) (hf : -1074 ≤ f)
    (hle : x ≤ n * 2 ^ f) : v ≤ n * 2 ^ f := by
  have hnear := h.nearest n f hn hf
  rw [abs_of_nonneg (sub_nonneg.mpr hle)] at hnear
  linarith [(abs_le.mp hnear).2]

theorem RoundsTo.le_of_ge (n : ℕ) (f : ℤ) (hn : n < 2 ^ 53) (hf : -1074 ≤ f)
    (hge : n * 2 ^ f ≤ x) : n * 2 ^ f ≤ v := by
  have hnear := h.nearest n f hn hf
  rw [abs_of_nonpos (sub_nonpos.mpr hge)] at hnear
  linarith [(abs_le.mp hnear).1]

theorem RoundsTo.le_double (hx : 0 ≤ x) : v ≤ 2 * x := by
  have hnear := h.nearest 0 0 (by norm_num) (by norm_num)
  rw [Nat.cast_zero, zero_mul, zero_sub, abs_neg, abs_of_nonneg hx] at hnear
  linarith [(abs_le.mp hnear).2]

/-- Rounding keeps the order. -/
theorem RoundsTo.le_of_lt (h' : RoundsTo y w) (hlt : x < y) : v ≤ w := by
  obtain ⟨m, e, hm, he, rfl⟩ := h.expressed
  obtain ⟨n, f, hn, hf, rfl⟩ := h'.expressed
  have hnear := sq_le_sq.mpr (h.nearest n f hn hf)
  have hnear' := sq_le_sq.mpr (h'.nearest m e hm he)
  by_contra hless
  nlinarith

end

/-- An unpacked double of a given sign and size, with the mantissa and the exponent that it is
packed with. -/
inductive Settled (s : Sign) : ℝ → UnpackedFloat → Prop
  | zero : Settled s 0 (.zero s)
  | finite {m : ℕ} {e : ℤ} (h : Tight m e) (hm : 0 < m) : Settled s (m * 2 ^ e) (.finite s m e hm)

section

variable {z : ℝ} {m r : ℕ} {e f : ℤ} {accuracy : Accuracy}

theorem target_eq (m : ℕ) (e : ℤ) : Format.binary64.targetExponent (totalExponent m e) =
    max ((m.log2 : ℤ) + e - 52) (-1074) := by
  simp only [Format.targetExponent, totalExponent, Format.mantissaBits, Format.minExponent]
  norm_num
  omega

/-- A number with no more places below the point than `e` stands for is a multiple of it. -/
theorem exists_multiple (n : ℕ) (h : e ≤ f) : ∃ w : ℕ, (n : ℝ) * 2 ^ f = w * 2 ^ e := by
  refine ⟨n * 2 ^ (f - e).toNat, ?_⟩
  have hexp : f = ((f - e).toNat : ℤ) + e := by omega
  rw [Nat.cast_mul, Nat.cast_pow, Nat.cast_ofNat, mul_assoc, ← zpow_natCast,
    ← zpow_add₀ (by norm_num), ← hexp]

/-- A number with more places below the point than `e` stands for is smaller than all that have a
full mantissa there. -/
theorem mul_zpow_lt {n : ℕ} (hn : n < 2 ^ 53) (h : f < e) : (n : ℝ) * 2 ^ f < 2 ^ 52 * 2 ^ e := by
  have hn' : (n : ℝ) < 2 ^ 53 := by exact_mod_cast hn
  calc (n : ℝ) * 2 ^ f < 2 ^ 53 * 2 ^ f := by gcongr
    _ = 2 ^ 52 * 2 ^ (f + 1) := by rw [zpow_add₀ two_ne_zero, zpow_one]; ring
    _ ≤ 2 ^ 52 * 2 ^ e := by
      gcongr
      · norm_num
      · omega

/-- No integer is nearer than one that is no more than a half away. -/
theorem abs_sub_le_of_near (hr : |(r : ℝ) - z| ≤ 1 / 2) (n : ℕ) : |(r : ℝ) - z| ≤ |n - z| := by
  rcases eq_or_ne n r with rfl | hne
  · exact le_rfl
  · have hapart : (1 : ℝ) ≤ |(n : ℝ) - r| := by
      have hne' : (n : ℤ) - r ≠ 0 := sub_ne_zero.mpr (by exact_mod_cast hne)
      exact_mod_cast Int.one_le_abs hne'
    have htriangle : |(n : ℝ) - r| ≤ |n - z| + |r - z| := by
      rw [abs_sub_comm (r : ℝ) z]
      exact abs_sub_le _ _ _
    linarith

/-- The integer nearest to a tight mantissa is what it is rounded to. -/
theorem roundsTo_of_near (h : Tight z e) (hr : |(r : ℝ) - z| ≤ 1 / 2) :
    RoundsTo (z * 2 ^ e) (r * 2 ^ e) := by
  have hpow : (0 : ℝ) < 2 ^ e := by positivity
  have hscale : ∀ n : ℕ, |(r : ℝ) * 2 ^ e - z * 2 ^ e| ≤ |(n : ℝ) * 2 ^ e - z * 2 ^ e| := by
    intro n
    rw [← sub_mul, ← sub_mul, abs_mul, abs_mul]
    exact mul_le_mul_of_nonneg_right (abs_sub_le_of_near hr n) (abs_nonneg _)
  refine ⟨?_, fun n f hn hf => ?_⟩
  · have hupper : (r : ℝ) < 2 ^ 53 + 1 := by linarith [h.lt, (abs_le.mp hr).2]
    have hupper' : r ≤ 2 ^ 53 := Nat.lt_succ_iff.mp (by exact_mod_cast hupper)
    rcases hupper'.lt_or_eq with hlt | rfl
    · exact ⟨r, e, hlt, h.le_exponent, rfl⟩
    · refine ⟨2 ^ 52, e + 1, by norm_num, by linarith [h.le_exponent], ?_⟩
      rw [zpow_add₀ two_ne_zero, zpow_one]
      push_cast
      ring
  rcases le_or_gt e f with hef | hef
  · obtain ⟨w, hw⟩ := exists_multiple n hef
    rw [hw]
    exact hscale w
  · -- below the least mantissa of this exponent, numbers are farther away than it is
    have hsmall := mul_zpow_lt hn hef
    have hlarge := mul_le_mul_of_nonneg_right (h.full.resolve_left (by omega)) hpow.le
    have hleast := hscale (2 ^ 52)
    rw [Nat.cast_pow, Nat.cast_ofNat, abs_of_nonpos (sub_nonpos.mpr hlarge)] at hleast
    rw [abs_of_nonpos (sub_nonpos.mpr (hsmall.le.trans hlarge))]
    linarith

/-- The places that a mantissa has to drop, as the exponent of a result tells. -/
def dropped (m : ℕ) (e : ℤ) : ℕ := (max ((m.log2 : ℤ) + e - 52) (-1074) - e).toNat

/-- Without the places that have to be dropped, a mantissa is tight. -/
theorem tight_dropped (h : Lies z m accuracy) (he : e ≤ max ((m.log2 : ℤ) + e - 52) (-1074)) :
    Tight (z / 2 ^ dropped m e) (e + dropped m e) := by
  have hexp : e + (dropped m e : ℤ) = max ((m.log2 : ℤ) + e - 52) (-1074) := by
    unfold dropped
    omega
  refine ⟨?_, by omega, ?_⟩
  · have hlog : m + 1 ≤ 2 ^ (53 + dropped m e) :=
      Nat.lt_log2_self.trans_le (Nat.pow_le_pow_right two_pos (by omega))
    have hlog' : (m : ℝ) + 1 ≤ 2 ^ 53 * 2 ^ dropped m e := by
      rw [← pow_add]
      exact_mod_cast hlog
    rw [div_lt_iff₀ (by positivity)]
    exact h.lt.trans_le hlog'
  · rcases eq_or_ne (e + (dropped m e : ℤ)) (-1074) with hleast | hleast
    · exact Or.inl hleast
    · have hlog : 52 + dropped m e ≤ m.log2 := by omega
      have hpos : m ≠ 0 := by
        rintro rfl
        have hzero : Nat.log2 0 = 0 := by decide
        omega
      have hm : 2 ^ (52 + dropped m e) ≤ m :=
        (Nat.pow_le_pow_right two_pos hlog).trans (Nat.log2_self_le hpos)
      have hm' : (2 : ℝ) ^ 52 * 2 ^ dropped m e ≤ m := by
        rw [← pow_add]
        exact_mod_cast hm
      rw [le_div_iff₀ (by positivity)]
      exact Or.inr (hm'.trans h.le)

/-- Rounding up may make a mantissa one place too long, and no longer. -/
theorem settled_shift (s : Sign) (hr : r ≤ 2 ^ 53) (he : -1074 ≤ e)
    (hfull : e = -1074 ∨ 2 ^ 52 ≤ r) :
    Settled s (r * 2 ^ e) (
      if h : (shiftToTargetExponent Format.binary64 r e .exact).1.mantissa = 0 then .zero s
      else .finite s (shiftToTargetExponent Format.binary64 r e .exact).1.mantissa
        (shiftToTargetExponent Format.binary64 r e .exact).2 (Nat.pos_of_ne_zero h)) := by
  rcases hr.lt_or_eq with hlt | rfl
  · have hlog : r.log2 ≤ 52 := by
      rcases Nat.eq_zero_or_pos r with rfl | hpos
      · decide
      · exact Nat.lt_succ_iff.mp ((Nat.log2_lt hpos.ne').mpr hlt)
    have hnone : (Format.binary64.targetExponent (totalExponent r e) - e).toNat = 0 := by
      rw [target_eq]
      omega
    have hshift : shiftToTargetExponent Format.binary64 r e .exact = (⟨r, false, false⟩, e) := by
      simp only [shiftToTargetExponent, shiftToExponent, hnone, Nat.cast_zero, add_zero]
      rfl
    simp only [hshift]
    split
    · rw [‹r = 0›, Nat.cast_zero, zero_mul]
      exact .zero
    · refine .finite ⟨by exact_mod_cast hlt, he, ?_⟩ _
      exact hfull.imp_right fun hle => by exact_mod_cast hle
  · have hone : Format.binary64.targetExponent (totalExponent (2 ^ 53) e) - e = 1 := by
      rw [target_eq, Nat.log2_two_pow]
      omega
    have hshift : shiftToTargetExponent Format.binary64 (2 ^ 53) e .exact =
        (⟨2 ^ 52, false, false⟩, e + 1) := by
      simp only [shiftToTargetExponent, shiftToExponent, hone]
      rfl
    have hvalue : ((2 ^ 53 : ℕ) : ℝ) * 2 ^ e = ((2 ^ 52 : ℕ) : ℝ) * 2 ^ (e + 1) := by
      rw [zpow_add₀ two_ne_zero, zpow_one]
      push_cast
      ring
    simp only [hshift]
    rw [dif_neg (by decide), hvalue]
    exact .finite ⟨by norm_num, by omega, Or.inr (by norm_num)⟩ _

/-- A result whose mantissa is long enough is rounded to a neighbor. -/
theorem exists_settled_roundWithAccuracy (s : Sign) (h : Lies z m accuracy)
    (he : e ≤ max ((m.log2 : ℤ) + e - 52) (-1074)) :
    ∃ v, Settled s v (roundWithAccuracy Format.binary64 s m e accuracy) ∧
      RoundsTo (z * 2 ^ e) v := by
  set k := dropped m e with hk
  have htight : Tight (z / 2 ^ k) (e + k) := tight_dropped h he
  have hlies := lies_shiftRight (lies_ofMantissaAndAccuracy h) k
  set em := ExtendedMantissa.ofMantissaAndAccuracy m accuracy >>> k with hem
  have hnear : |(em.roundedMantissa : ℝ) - z / 2 ^ k| ≤ 1 / 2 := hlies.abs_sub_le
  have hfirst : shiftToTargetExponent Format.binary64 m e accuracy = (em, e + k) := by
    simp only [shiftToTargetExponent, shiftToExponent, target_eq]
    rfl
  have hvalue : z * 2 ^ e = z / 2 ^ k * 2 ^ (e + (k : ℤ)) := by
    rw [zpow_add₀ two_ne_zero, zpow_natCast]
    field_simp
  refine ⟨em.roundedMantissa * 2 ^ (e + (k : ℤ)), ?_, hvalue ▸ roundsTo_of_near htight hnear⟩
  rw [abs_le] at hnear
  have hupper : (em.roundedMantissa : ℝ) < 2 ^ 53 + 1 := by linarith [htight.lt]
  have hsettled := settled_shift s (r := em.roundedMantissa) (e := e + k)
    (Nat.lt_succ_iff.mp (by exact_mod_cast hupper)) htight.le_exponent
    (htight.full.imp_right fun hle => by
      have hlower : (2 : ℝ) ^ 52 < em.roundedMantissa + 1 := by linarith
      exact Nat.lt_succ_iff.mp (by exact_mod_cast hlower))
  unfold roundWithAccuracy
  simp only [hfirst]
  exact hsettled

theorem log2_shiftLeft (hm : 0 < m) (k : ℕ) : (m <<< k).log2 = m.log2 + k := by
  have hpow : 0 < 2 ^ k := Nat.two_pow_pos k
  rw [Nat.shiftLeft_eq, Nat.log2_eq_iff (Nat.mul_pos hm hpow).ne', Nat.add_right_comm, Nat.pow_add,
    Nat.pow_add]
  exact ⟨Nat.mul_le_mul_right _ (Nat.log2_self_le hm.ne'),
    Nat.mul_lt_mul_of_pos_right Nat.lt_log2_self hpow⟩

/-- Where a mantissa may be too short, it is made longer first. -/
theorem exists_settled_round (s : Sign) (hm : 0 < m) (e : ℤ) :
    ∃ v, Settled s v (UnpackedFloat.round Format.binary64 s m e) ∧ RoundsTo (m * 2 ^ e) v := by
  set k := (e - max ((m.log2 : ℤ) + e - 52) (-1074)).toNat with hk
  have hlog : (m <<< k).log2 = m.log2 + k := log2_shiftLeft hm k
  have hexact : Lies ((m <<< k : ℕ) : ℝ) (m <<< k) .exact := rfl
  have hlong : e - (k : ℤ) ≤ max (((m <<< k).log2 : ℤ) + (e - k) - 52) (-1074) := by
    rw [hlog]
    omega
  obtain ⟨v, hsettled, hrounds⟩ := exists_settled_roundWithAccuracy s hexact hlong
  have hvalue : ((m <<< k : ℕ) : ℝ) * 2 ^ (e - (k : ℤ)) = m * 2 ^ e := by
    rw [Nat.shiftLeft_eq, zpow_sub₀ two_ne_zero, zpow_natCast]
    push_cast
    field_simp
  rw [hvalue] at hrounds
  refine ⟨v, ?_, hrounds⟩
  unfold UnpackedFloat.round
  simp only [decreaseExponent, target_eq]
  exact hsettled

end

end Resampler.Binary64
