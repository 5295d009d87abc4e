import Mathlib.Algebra.Order.Floor.Semiring
import Mathlib.Tactic.FieldSimp
import Mathlib.Tactic.Ring
import Resampler.Proofs.Rational
import Resampler.Proofs.Taps.Balanced

/-!
What the windows of a change of size cover.

A window is anchored at its last tap, the last sample within reach of the center, and has as many
taps as fit into twice the reach, rounded up. In exact arithmetic this leaves out no sample that is
within reach, on whichever side of a sample the center lies. Centers move by the same distance from
one output sample to the next, so windows never move back, before they are confined as
little as after.

An output sample stands for a stretch of the input axis, and the stretches of all of them follow
each other without a gap. The middle of an input sample lies in one of them. The sample is covered
by the window of that output sample if the window reaches over the stretch, which it does for every
kernel that was as wide as the box before the axis shrank.
-/

namespace Resampler

namespace LooseTable

/-- The window of output sample `i`, an empty one where there is none. -/
def window (t : LooseTable) (i : Nat) : LooseTaps := t.windows.getD i default

/-- Place `k`, on the axis or past an end of it, lies in the window of output sample `i`. -/
def Covers (t : LooseTable) (i : Nat) (k : Int) : Prop :=
  (t.window i).start ≤ k ∧ k < (t.window i).start + t.tapCount

/-- No window starts before those of earlier samples. -/
def Ascending (t : LooseTable) : Prop :=
  ∀ i j, i ≤ j → j < t.windows.size → (t.window i).start ≤ (t.window j).start

theorem window_eq_getElem {t : LooseTable} {i : Nat} (h : i < t.windows.size) :
    t.window i = t.windows[i] := by
  simp [window, h]

theorem Ascending.confine {t : LooseTable} (h : t.Ascending) : t.confine.Ascending := by
  refine t.ascending_confine fun i j hi hj hij => ?_
  rw [← window_eq_getElem hi, ← window_eq_getElem hj]
  exact h i j hij hj

/-- Confining a window keeps the samples of the axis in it. -/
theorem Covers.confine {t : LooseTable} {i k : Nat} (h : t.Covers i k) (hi : i < t.windows.size)
    (hk : k < t.inputSize) : t.confine.Covers i k := by
  obtain ⟨hlo, hhi⟩ := h
  rw [window_eq_getElem hi] at hlo hhi
  rw [TapTable.Covers, window_confine t hi, LooseTaps.start_confine, LooseTaps.confinedStart]
  simp only [LooseTable.confine]
  omega

end LooseTable

namespace Interpolation

variable {f : Interpolation ℚ}

theorem appliedBlur_of_le (h : f.weighting.support ≤ 1 / 2) : f.appliedBlur = 1 := by
  rw [appliedBlur, Scalar.lt_rat, Rational.half_eq, Rational.one_eq, decide_eq_false (not_lt.mpr h)]
  rfl

theorem appliedBlur_of_lt (h : 1 / 2 < f.weighting.support) : f.appliedBlur = f.blur := by
  rw [appliedBlur, Scalar.lt_rat, Rational.half_eq, decide_eq_true h, if_pos rfl]

/-- No kernel is widened to a tenth of a sample. -/
theorem tenth_le_support (h : 1 / 10 ≤ f.weighting.support * f.appliedBlur) :
    1 / 10 ≤ f.weighting.support := by
  by_contra hnarrow
  rw [appliedBlur_of_le (by linarith)] at h
  linarith

end Interpolation

namespace ScaleAxis

/-- Place `k` is that of a tap of output sample `i`. -/
def Reads (a : ScaleAxis ℚ) (i : Nat) (k : Int) : Prop := a.start i ≤ k ∧ k < a.start i + a.tapCount

variable (a : ScaleAxis ℚ) (i : Nat)

theorem start_rat : a.start i = ⌊a.center i + a.reach⌋ - a.tapCount + 1 := rfl

theorem tapCount_rat : a.tapCount = max ⌈a.reach * 2⌉.toNat 1 := by
  rw [tapCount, Scalar.ceil_rat, Rational.two_eq]

/-- The taps of a window are as many as fit into it, or one more. -/
theorem reach_mul_two_le_tapCount : a.reach * 2 ≤ a.tapCount := by
  have hceil : ⌈a.reach * 2⌉ ≤ (a.tapCount : Int) := by
    rw [tapCount_rat]
    omega
  exact (Int.le_ceil _).trans (by exact_mod_cast hceil)

variable {a i}

/-- The last sample within reach is always read. -/
theorem reads_last : a.Reads i ⌊a.center i + a.reach⌋ := by
  have hpos := a.tapCount_pos
  rw [Reads, start_rat]
  omega

/-- Every sample within reach of the center is read. -/
theorem reads_of_near {k : Int} (hlo : a.center i - a.reach < k) (hhi : k ≤ a.center i + a.reach) :
    a.Reads i k := by
  have hlast : k ≤ ⌊a.center i + a.reach⌋ := Int.le_floor.mpr hhi
  have hfirst : ⌊a.center i + a.reach⌋ - a.tapCount < k := by
    have hfloor := Int.floor_le (a.center i + a.reach)
    have htaps := a.reach_mul_two_le_tapCount
    have hlt : (⌊a.center i + a.reach⌋ : ℚ) - a.tapCount < k := by linarith
    exact_mod_cast hlt
  rw [Reads, start_rat]
  omega

section Of

variable {input output : Nat} {f : Interpolation ℚ}

theorem center_of (houtput : 0 < output) (i : Nat) :
    (of input output f).center i =
      ((i : ℚ) + 1 / 2) * (input / output) - 1 / 2 + (of input output f).offset := by
  have hne : (output : ℚ) ≠ 0 := by positivity
  rw [center, Rational.two_eq]
  simp only [of, Scalar.ofNat_rat]
  field_simp
  ring

theorem reach_of (hinput : 0 < input) (houtput : 0 < output) :
    (of input output f).reach =
      min (f.weighting.support * f.appliedBlur * max ((input : ℚ) / output) 1)
        ((input : ℚ) / 2) := by
  have hi : (0 : ℚ) < input := by positivity
  have ho : (0 : ℚ) < output := by positivity
  have hshrink : (of input output f).shrink⁻¹ = max (input / output : ℚ) 1 := by
    rw [shrink, Scalar.least_rat, Rational.one_eq]
    simp only [of, Scalar.ofNat_rat]
    rcases le_total (output / input : ℚ) 1 with h | h
    · rw [min_eq_left h, inv_div, max_eq_left ((one_le_div ho).mpr ((div_le_one hi).mp h))]
    · rw [min_eq_right h, inv_one, max_eq_right ((div_le_one ho).mpr ((one_le_div hi).mp h))]
  rw [reach, Scalar.least_rat, div_eq_mul_inv, hshrink, Rational.two_eq]
  simp only [of, Scalar.ofNat_rat]
  congr 1
  ring

/-- Windows never move back. -/
theorem start_mono (hinput : 0 < input) (houtput : 0 < output) {i j : Nat} (h : i ≤ j) :
    (of input output f).start i ≤ (of input output f).start j := by
  have hcenter : (of input output f).center i ≤ (of input output f).center j := by
    rw [center_of houtput, center_of houtput]
    gcongr
  have hfloor : ⌊(of input output f).center i + (of input output f).reach⌋ ≤
      ⌊(of input output f).center j + (of input output f).reach⌋ :=
    Int.floor_mono (by linarith)
  rw [start_rat, start_rat]
  omega

/-- Only a kernel that picks a single sample has its center moved. -/
theorem offset_of (input output : Nat) (f : Interpolation ℚ) :
    (of input output f).offset = if f.weighting.support < 1 / 10 then 1 / 2 else 0 := by
  have htenth : (0.1 : ℚ) = 1 / 10 := by norm_num
  simp only [offset, of, Scalar.lt_rat, htenth, decide_eq_true_eq, Rational.half_eq,
    Rational.zero_eq]

theorem offset_of_le (h : 1 / 10 ≤ f.weighting.support) : (of input output f).offset = 0 := by
  rw [offset_of, if_neg (not_lt.mpr h)]

/-- A window that was at least as wide as the box before the axis shrank reaches over the stretch of
the axis that its output sample stands for. -/
theorem half_ratio_le_reach (hinput : 0 < input) (houtput : 0 < output)
    (hwide : 1 / 2 ≤ f.weighting.support * f.appliedBlur) :
    (input : ℚ) / output / 2 ≤ (of input output f).reach := by
  have hi : (0 : ℚ) < input := by positivity
  rw [reach_of hinput houtput]
  refine le_min ?_ ?_
  · calc (input : ℚ) / output / 2 = 1 / 2 * (input / output) := by ring
      _ ≤ 1 / 2 * max ((input : ℚ) / output) 1 := by gcongr; exact le_max_left _ _
      _ ≤ f.weighting.support * f.appliedBlur * max ((input : ℚ) / output) 1 := by gcongr
  · have hone : (1 : ℚ) ≤ output := by exact_mod_cast houtput
    have hle : (input : ℚ) / output ≤ input := div_le_self hi.le hone
    linarith

/-- The middle of an input sample lies in the stretch of one output sample. -/
theorem exists_stretch (hinput : 0 < input) (houtput : 0 < output) {k : Nat} (hk : k < input) :
    ∃ i < output, (i : ℚ) * (input / output) < k + 1 / 2 ∧
      (k : ℚ) + 1 / 2 ≤ (i + 1) * (input / output) := by
  have hi : (0 : ℚ) < input := by positivity
  have ho : (0 : ℚ) < output := by positivity
  have hratio : (0 : ℚ) < (input : ℚ) / output := by positivity
  -- the place of the middle, counted in stretches
  set x : ℚ := (k + 1 / 2) / (input / output) with hx
  have hpos : 0 < x := by positivity
  have hlt : x < output := by
    have hmiddle : (k : ℚ) + 1 ≤ input := by exact_mod_cast hk
    rw [hx, div_lt_iff₀ hratio, mul_div_cancel₀ _ ho.ne']
    linarith
  have hup : 0 < ⌈x⌉₊ := Nat.ceil_pos.mpr hpos
  have hend : ⌈x⌉₊ ≤ output := Nat.ceil_le.mpr hlt.le
  have hcast : ((⌈x⌉₊ - 1 : Nat) : ℚ) = ⌈x⌉₊ - 1 := by
    rw [Nat.cast_sub hup, Nat.cast_one]
  refine ⟨⌈x⌉₊ - 1, by omega, ?_, ?_⟩
  · have hbelow := Nat.ceil_lt_add_one hpos.le
    rw [← lt_div_iff₀ hratio, ← hx, hcast]
    linarith
  · have habove := Nat.le_ceil x
    rw [← div_le_iff₀ hratio, ← hx, hcast]
    linarith

/-- With such a kernel, every input sample is read for some output sample. -/
theorem exists_reads (hinput : 0 < input) (houtput : 0 < output)
    (hwide : 1 / 2 ≤ f.weighting.support * f.appliedBlur) {k : Nat} (hk : k < input) :
    ∃ i < output, (of input output f).Reads i k := by
  obtain ⟨i, hi, hlo, hhi⟩ := exists_stretch hinput houtput hk
  have hreach := half_ratio_le_reach hinput houtput hwide
  have hcenter : (of input output f).center i = _ := center_of houtput i
  rw [offset_of_le (Interpolation.tenth_le_support (by linarith))] at hcenter
  refine ⟨i, hi, reads_of_near ?_ ?_⟩ <;> push_cast <;> linarith

end Of

end ScaleAxis

namespace LooseTable

/-- Where the windows of a table for a change of size lie before they are confined. -/
structure Placed {α : Type} [Scalar α] (t : LooseTable) (input output : Nat) (f : Interpolation α) :
    Prop where
  inputSize_eq : t.inputSize = input
  size_windows : t.windows.size = output
  tapCount_eq : t.tapCount = (ScaleAxis.of input output f).tapCount
  start_eq : ∀ i < output, (t.window i).start = (ScaleAxis.of input output f).start i

theorem placed_scale {α : Type} [Scalar α] {input output colors : Nat} {alpha : Bool}
    {f : Interpolation α} {t : LooseTable} (h : scale input output colors alpha f = .ok t) :
    t.Placed input output f := by
  obtain ⟨_, -, h⟩ := bind_eq_ok_iff.mp h
  cases h
  refine ⟨rfl, by simp, rfl, fun i hi => ?_⟩
  simp [window, hi]

theorem exists_scale {α : Type} [Scalar α] {input output colors : Nat} (hinput : 0 < input)
    (houtput : 0 < output) (hcolors : 0 < colors) (alpha : Bool) (f : Interpolation α) :
    ∃ t, scale input output colors alpha f = .ok t ∧
      TapTable.scale input output colors alpha f = .ok t.confine := by
  obtain ⟨confined, hconfined⟩ := TapTable.exists_scale hinput houtput hcolors alpha f
  obtain ⟨t, ht, rfl⟩ := map_eq_ok_iff.mp hconfined
  exact ⟨t, ht, hconfined⟩

namespace Placed

variable {t : LooseTable} {input output : Nat} {f : Interpolation ℚ} (h : t.Placed input output f)
include h

theorem covers_iff_reads {i : Nat} (hi : i < output) {k : Int} :
    t.Covers i k ↔ (ScaleAxis.of input output f).Reads i k := by
  rw [Covers, h.start_eq i hi, h.tapCount_eq]
  rfl

theorem ascending (hinput : 0 < input) (houtput : 0 < output) : t.Ascending := by
  intro i j hij hj
  rw [h.size_windows] at hj
  rw [h.start_eq i (hij.trans_lt hj), h.start_eq j hj]
  exact ScaleAxis.start_mono hinput houtput hij

end Placed

/-- In exact arithmetic, a table for a change of size misses nothing. Each of its windows covers
every sample within reach of the center; windows never move back, neither before they are confined
nor after; and if the kernel, widened as it is, is as wide as the box, every sample of the
axis is covered by the window of some output sample. -/
theorem scale_misses_nothing {input output colors : Nat} (hinput : 0 < input)
    (houtput : 0 < output) (hcolors : 0 < colors) (alpha : Bool) (f : Interpolation ℚ) :
    ∃ t, scale input output colors alpha f = .ok t ∧
      TapTable.scale input output colors alpha f = .ok t.confine ∧ t.windows.size = output ∧
      (∀ i < output, ∀ k : Int,
        (ScaleAxis.of input output f).center i - (ScaleAxis.of input output f).reach < k →
        k ≤ (ScaleAxis.of input output f).center i + (ScaleAxis.of input output f).reach →
          t.Covers i k) ∧
      t.Ascending ∧ t.confine.Ascending ∧
      (1 / 2 ≤ f.weighting.support * f.appliedBlur →
        ∀ k < input, ∃ i < output, t.Covers i k ∧ t.confine.Covers i k) := by
  obtain ⟨t, ht, hconfined⟩ := exists_scale hinput houtput hcolors alpha f
  have hplaced := placed_scale ht
  have hascending := hplaced.ascending hinput houtput
  refine ⟨t, ht, hconfined, hplaced.size_windows, fun i hi k hlo hhi => ?_, hascending,
    hascending.confine, fun hwide k hk => ?_⟩
  case refine_1 => exact (hplaced.covers_iff_reads hi).mpr (ScaleAxis.reads_of_near hlo hhi)
  case refine_2 =>
    obtain ⟨i, hi, hreads⟩ := ScaleAxis.exists_reads hinput houtput hwide hk
    have hcovers := (hplaced.covers_iff_reads hi).mpr hreads
    exact ⟨i, hi, hcovers,
      hcovers.confine (hplaced.size_windows.symm ▸ hi) (hplaced.inputSize_eq.symm ▸ hk)⟩

/-- Five samples are made into three by the box. -/
theorem scale_misses_nothing_five_to_three :
    ∃ t, scale 5 3 1 false (.plain (.box : Weighting ℚ)) = .ok t ∧ t.Covers 0 0 ∧
      t.Covers 1 2 ∧ ∃ i < 3, t.Covers i 4 ∧ t.confine.Covers i 4 := by
  obtain ⟨t, ht, -, -, hnear, -, -, hall⟩ := scale_misses_nothing (by decide : 0 < 5)
    (by decide : 0 < 3) Nat.one_pos false (.plain (.box : Weighting ℚ))
  refine ⟨t, ht, hnear 0 (by decide) 0 (by decide +kernel) (by decide +kernel),
    hnear 1 (by decide) 2 (by decide +kernel) (by decide +kernel), ?_⟩
  exact hall (by decide +kernel) 4 (by decide)

end LooseTable

end Resampler
