import Resampler.Proofs.Binary64.Arithmetic
import Resampler.Proofs.Binary64.Integer

/-!
Doubles as scalars.

What the operations of a `Scalar` do to doubles, told by the numbers that these are.
-/

namespace Resampler.Scalar

open Binary64

theorem is_ofNat {n : ℕ} (hn : n < 2 ^ 53) : Is (ofNat n) n := ofNat_value hn

theorem is_least {x y : Float} {a b : ℝ} (hx : Is x a) (hy : Is y b) :
    Is (least x y) (min a b) := by
  have hle : le x y = decide (a ≤ b) := by
    have hiff := (le_iff_of_value hx hy).trans EReal.coe_le_coe_iff
    exact decide_eq_decide.mpr hiff
  rw [least, hle, min_def]
  by_cases h : a ≤ b
  · simpa [h] using hx
  · simpa [h] using hy

theorem floor_eq {x : Float} {v : ℝ} (hx : Is x v) : floor x = Word.saturate64 ⌊v⌋ := by
  obtain ⟨d, hd, rfl⟩ := exists_dyadic hx
  change toWord Dyadic.floor x = _
  rw [toWord, hd, ← Dyadic.floor_eq]

theorem ceil_eq {x : Float} {v : ℝ} (hx : Is x v) : ceil x = Word.saturate64 ⌈v⌉ := by
  obtain ⟨d, hd, rfl⟩ := exists_dyadic hx
  change toWord Dyadic.ceil x = _
  rw [toWord, hd, ← Dyadic.ceil_eq]

theorem round_bounds {x : Float} {v : ℝ} (hx : Is x v) (hv : 0 ≤ v) :
    0 ≤ round x ∧ (round x : ℝ) ≤ 2 * v := by
  obtain ⟨d, hd, rfl⟩ := exists_dyadic hx
  have hpos : (0 : ℝ) < 2 ^ d.exponent := by positivity
  obtain ⟨hlo, hhi⟩ := d.round_bounds (by exact_mod_cast nonneg_of_mul_nonneg_left hv hpos)
  change 0 ≤ toWord Dyadic.round x ∧
    (toWord Dyadic.round x : ℝ) ≤ _
  have hword : Word.saturate64 d.round ≤ d.round := by
    unfold Word.saturate64
    omega
  rw [toWord, hd]
  refine ⟨?_, le_trans (by exact_mod_cast hword) hhi⟩
  change 0 ≤ Word.saturate64 d.round
  unfold Word.saturate64
  omega

/-- Where no number is negative, sizes compare as the numbers do. -/
theorem lt_abs_abs {x y : Float} {a b : ℝ} (hx : Is x a) (ha : 0 ≤ a) (hy : Is y b)
    (hb : 0 ≤ b) : lt (abs x) (abs y) = decide (extent x < extent y) := by
  have habs : ∀ {z : Float} {c : ℝ}, Is z c → 0 ≤ c → abs z = z := fun hz hc =>
    if_neg fun hlt => not_le.mpr
      (EReal.coe_lt_coe_iff.mp ((lt_iff_of_value hz is_zero).mp (of_decide_eq_true hlt))) hc
  rw [habs hx ha, habs hy hb, hx.extent_eq, hy.extent_eq]
  exact decide_eq_decide.mpr (lt_iff_of_value hx hy)

end Resampler.Scalar
