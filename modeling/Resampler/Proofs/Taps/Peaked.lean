import Resampler.Proofs.Binary64.Scalar
import Resampler.Proofs.Binary64.Spacing
import Resampler.Proofs.Taps.Symmetric

/-!
Kernels of doubles that have their peak in the middle.

Dividing a kernel by its sum rounds every value. A kernel that has fallen from its middle by a share
of `2 ^ -50` keeps its peak there (`Peaked.peak_full`): the sum is no more than as many times the
middle as there are taps, so that no quotient is too small for its places to be told apart.
-/

namespace Resampler

open Binary64

namespace DiscreteKernel

/-- A kernel that has fallen from its middle by more than rounding could make up for. -/
structure Peaked (bell : ℕ → Float) (reach : ℕ) (h : ℝ) : Prop where
  reach_lt : reach < 2 ^ 31
  le_height : 2 ^ (-500 : ℤ) ≤ h
  height_le : h ≤ 2 ^ (600 : ℤ)
  middle : Is (bell 0) h
  side : ∀ d, 0 < d → d ≤ reach → ∃ v, Is (bell d) v ∧ 0 ≤ v ∧ v ≤ h * (1 - 1 / 2 ^ 50)

namespace Peaked

variable {bell : ℕ → Float} {reach : ℕ} {h : ℝ} (hbell : Peaked bell reach h)
include hbell

theorem height_pos : 0 < h := lt_of_lt_of_le (by positivity) hbell.le_height

theorem getElem_middle (hj : reach < (taps bell reach).length) : Is (taps bell reach)[reach] h := by
  rw [getElem_taps, sub_self]
  exact hbell.middle

theorem getElem_side {j : ℕ} (hj : j < (taps bell reach).length) (hne : j ≠ reach) :
    ∃ v, Is (taps bell reach)[j] v ∧ 0 ≤ v ∧ v ≤ h * (1 - 1 / 2 ^ 50) := by
  rw [getElem_taps]
  rw [length_taps] at hj
  exact hbell.side _ (by omega) (by omega)

theorem value_of_mem {x : Float} (hx : x ∈ taps bell reach) : ∃ v, Is x v ∧ 0 ≤ v ∧ v ≤ h := by
  obtain ⟨j, hj, rfl⟩ := List.getElem_of_mem hx
  by_cases hmiddle : j = reach
  · subst hmiddle
    exact ⟨h, hbell.getElem_middle hj, hbell.height_pos.le, le_rfl⟩
  · obtain ⟨v, hv, hlo, hhi⟩ := hbell.getElem_side hj hmiddle
    exact ⟨v, hv, hlo, hhi.trans (by linarith [hbell.height_pos])⟩

/-- The sum is no less than the middle, and no more than as many times as there are taps. -/
theorem exists_sum : ∃ t, Is (Scalar.sum (taps bell reach)) t ∧ h ≤ t ∧ t ≤ h * 2 ^ 34 := by
  have hreach := hbell.reach_lt
  -- the sums are bounded by multiples of a power of two, which are doubles
  obtain ⟨k, hklo, hkhi, hle, hlt⟩ := exists_log hbell.le_height hbell.height_le
  have hany : ∀ x ∈ taps bell reach, ∃ v, Is x v ∧ 0 ≤ v ∧ v ≤ 2 ^ (k + 1) := fun x hx =>
    (hbell.value_of_mem hx).imp fun v hv => ⟨hv.1, hv.2.1, hv.2.2.trans hlt.le⟩
  obtain ⟨t, ht, -, hthi, hall⟩ := foldl_add_value (by omega) (by omega) is_zero le_rfl
    (by simp : (0 : ℝ) ≤ (0 : ℕ) * 2 ^ (k + 1)) hany (by rw [length_taps]; omega)
  have hmiddle : reach < (taps bell reach).length := by
    rw [length_taps]
    omega
  refine ⟨t, ht, hall _ (List.getElem_mem hmiddle) h (hbell.getElem_middle hmiddle), ?_⟩
  have hcount : ((0 + (taps bell reach).length : ℕ) : ℝ) ≤ 2 ^ 33 := by
    rw [length_taps]
    exact_mod_cast (by omega : 0 + (2 * reach + 1) ≤ 2 ^ 33)
  calc t ≤ (0 + (taps bell reach).length : ℕ) * 2 ^ (k + 1) := hthi
    _ ≤ 2 ^ 33 * (2 ^ k * 2) := by
      rw [zpow_add_one₀ two_ne_zero]
      gcongr
    _ ≤ 2 ^ 33 * (h * 2) := by gcongr
    _ = h * 2 ^ 34 := by ring

/-- Dividing by the sum keeps the sides below the middle. -/
theorem exists_quotient (hmiddle : reach < (full bell reach).length) :
    ∃ w, Is (full bell reach)[reach] w ∧ 0 ≤ w ∧
      ∀ j (hj : j < (full bell reach).length), j ≠ reach →
        ∃ u, Is (full bell reach)[j] u ∧ 0 ≤ u ∧ u < w := by
  obtain ⟨t, ht, hht, hle⟩ := hbell.exists_sum
  have hpos := hbell.height_pos
  have htpos : 0 < t := hpos.trans_le hht
  have hlow : 2 ^ (-34 : ℤ) ≤ h / t := by
    rw [le_div_iff₀ htpos]
    norm_num at hle ⊢
    linarith
  have hhigh : h / t ≤ 1 := (div_le_one htpos).mpr hht
  have hquotient : ∀ {x : Float} {v : ℝ}, Is x v → 0 ≤ v → v ≤ h →
      ∃ w, Is (x / Scalar.sum (taps bell reach)) w ∧ Rounded (v / t) w ∧ 0 ≤ w ∧ w ≤ 1 :=
    fun hx hv hle =>
      Is.exists_between (div_rounded (s := .positive) hv htpos hx ht) isDouble_zero isDouble_one
        (by positivity) (((div_le_div_iff_of_pos_right htpos).mpr hle).trans hhigh)
  simp only [full_eq_map, List.getElem_map, List.length_map] at hmiddle ⊢
  obtain ⟨w, hw, hwrounded, hwlo, -⟩ := hquotient (hbell.getElem_middle hmiddle) hpos.le le_rfl
  refine ⟨w, hw, hwlo, fun j hj hne => ?_⟩
  obtain ⟨v, hv, hvlo, hvhi⟩ := hbell.getElem_side hj hne
  obtain ⟨u, hu, hurounded, hulo, -⟩ := hquotient hv hvlo (hvhi.trans (by linarith))
  have hshare : v / t ≤ h / t * (1 - 1 / 2 ^ 50) := by
    rw [div_mul_eq_mul_div]
    gcongr
  exact ⟨u, hu, hulo, EReal.coe_lt_coe_iff.mp (hwrounded.lt_of_shrunk hurounded
    (hlow.trans' (zpow_le_zpow_right₀ one_le_two (by norm_num)))
    (hhigh.trans_lt (one_lt_zpow₀ one_lt_two (by norm_num))) hshare)⟩

/-- The peak is in the middle, also after the kernel has been divided by its sum. -/
theorem peak_full : FixedPoint.peak (full bell reach) = reach := by
  obtain ⟨w, hw, hwlo, hless⟩ := hbell.exists_quotient lt_length_full
  have hvalue : ∀ x ∈ full bell reach, ∃ v, Is x v ∧ 0 ≤ v := by
    intro x hx
    obtain ⟨j, hj, rfl⟩ := List.getElem_of_mem hx
    by_cases hmiddle : j = reach
    · subst hmiddle
      exact ⟨w, hw, hwlo⟩
    · obtain ⟨u, hu, hulo, -⟩ := hless j hj hmiddle
      exact ⟨u, hu, hulo⟩
  have hsize : ∀ x ∈ full bell reach, ∀ y ∈ full bell reach,
      Scalar.lt (Scalar.abs x) (Scalar.abs y) = decide (extent x < extent y) := by
    intro x hx y hy
    obtain ⟨a, ha, hapos⟩ := hvalue x hx
    obtain ⟨b, hb, hbpos⟩ := hvalue y hy
    exact Scalar.lt_abs_abs ha hapos hb hbpos
  refine FixedPoint.peak_eq hsize lt_length_full fun j hj hne => ?_
  obtain ⟨u, hu, -, hlt⟩ := hless j hj hne
  rw [hu.extent_eq, hw.extent_eq]
  exact EReal.coe_lt_coe_iff.mpr hlt

end Peaked

end DiscreteKernel

end Resampler
