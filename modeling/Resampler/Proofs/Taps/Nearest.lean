import Mathlib.Algebra.Order.Archimedean.Basic
import Resampler.Proofs.Taps.Alpha
import Resampler.Proofs.Taps.Covering

/-!
The nearest sample.

Where an axis is enlarged, output samples lie closer together than the samples of the axis, and a
window that is narrower than a sample has a single tap. Which one that is follows from where the
window is anchored. If the window reaches half a sample to either side, or nearly so, it
has a tap that is nearest to its output sample. So has the window of a kernel of next to no
support, whose center is moved by half a sample. The kernels between the two do not keep the nearest
sample: with a support of a tenth and more the center stays and the tap is the one before it, and
below a tenth the moved window reaches over the sample after the nearest.

Of the presets these are Gaussians only. All others keep the nearest sample with every factor
that they can be widened or narrowed by.
-/

namespace Resampler

namespace ScaleAxis

/-- The place on the input axis that output sample `i` stands for. -/
def place (input output i : Nat) : ℚ := ((i : ℚ) + 1 / 2) * (input / output) - 1 / 2

/-- Up to a millionth, sample `k` is nearest to the place of output sample `i`. -/
def IsNearest (input output i : Nat) (k : Int) : Prop :=
  |(k : ℚ) - place input output i| ≤ 1 / 2 + 1 / 10 ^ 6

instance (input output i : Nat) (k : Int) : Decidable (IsNearest input output i k) :=
  inferInstanceAs (Decidable (_ ≤ _))

end ScaleAxis

/-- The middles of the parts that one sample is cut into come to lie between any two numbers. -/
theorem exists_middle_between {a b : ℚ} (ha : 0 ≤ a) (hab : a < b) (hb : b ≤ 1) :
    ∃ n i : Nat, i < n ∧ a < ((i : ℚ) + 1 / 2) * (1 / n) ∧ ((i : ℚ) + 1 / 2) * (1 / n) < b := by
  obtain ⟨n, hn⟩ := exists_nat_gt (1 / (b - a))
  have hgap : 0 < b - a := sub_pos.mpr hab
  have hpos : (0 : ℚ) < n := (one_div_pos.mpr hgap).trans hn
  have hfine : 1 < (b - a) * n := by
    rw [div_lt_iff₀ hgap] at hn
    linarith
  have hlo := Nat.floor_le (show 0 ≤ a * n + 1 / 2 by positivity)
  have hhi := Nat.lt_floor_add_one (a * n + 1 / 2)
  refine ⟨n, ⌊a * n + 1 / 2⌋₊, ?_, ?_, ?_⟩
  · have hlt : (⌊a * n + 1 / 2⌋₊ : ℚ) < n := by nlinarith
    exact_mod_cast hlt
  · rw [mul_one_div, lt_div_iff₀ hpos]
    linarith
  · rw [mul_one_div, div_lt_iff₀ hpos]
    linarith

namespace Interpolation

variable {f : Interpolation ℚ}

/-- Where an axis is enlarged, every window has a tap that is nearest to its output sample, up to a
millionth. -/
def KeepsNearest (f : Interpolation ℚ) : Prop :=
  ∀ {input output colors : Nat} {alpha : Bool} {t : LooseTable},
    LooseTable.scale input output colors alpha f = .ok t → input ≤ output →
      ∀ i < output, ∃ k, t.Covers i k ∧ ScaleAxis.IsNearest input output i k

/-- The kernel is nearly as wide as the box, or has next to no support. -/
def Anchored (f : Interpolation ℚ) : Prop :=
  f.weighting.support ≤ 1 / 10 ^ 6 ∨ 1 / 2 - 1 / 10 ^ 6 ≤ f.weighting.support * f.appliedBlur

end Interpolation

namespace ScaleAxis

variable {input output : Nat} {f : Interpolation ℚ}

/-- Where an axis is enlarged, kernels are not stretched. -/
theorem reach_of_le (hinput : 0 < input) (h : input ≤ output) :
    (of input output f).reach = min (f.weighting.support * f.appliedBlur) (input / 2) := by
  have houtput : (0 : ℚ) < output := by exact_mod_cast hinput.trans_le h
  have hratio : (input : ℚ) / output ≤ 1 := (div_le_one houtput).mpr (by exact_mod_cast h)
  rw [reach_of hinput (hinput.trans_le h), max_eq_right hratio, mul_one]

theorem offset_of_lt (h : f.weighting.support < 1 / 10) : (of input output f).offset = 1 / 2 := by
  rw [offset_of, if_pos h]

theorem center_eq_place (houtput : 0 < output) (i : Nat) :
    (of input output f).center i = place input output i + (of input output f).offset := by
  rw [center_of houtput, place]

/-- A window that reaches half a sample, up to a millionth, has the nearest tap. -/
theorem nearest_of_wide (hinput : 0 < input) (h : input ≤ output)
    (hwide : 1 / 2 - 1 / 10 ^ 6 ≤ f.weighting.support * f.appliedBlur) (i : Nat) :
    ∃ k, (of input output f).Reads i k ∧ IsNearest input output i k := by
  have hsupport := Interpolation.tenth_le_support (f := f) (by linarith)
  have hone : (1 : ℚ) ≤ input := by exact_mod_cast hinput
  have hreach : 1 / 2 - 1 / 10 ^ 6 ≤ (of input output f).reach := by
    rw [reach_of_le hinput h]
    exact le_min hwide (by linarith)
  have hcenter : (of input output f).center i = _ := center_eq_place (hinput.trans_le h) i
  rw [offset_of_le hsupport, add_zero] at hcenter
  rcases le_or_gt (1 / 2) (of input output f).reach with hhalf | hhalf
  · -- a sample within half a sample of the center is within reach
    have hlo := Int.floor_le (place input output i + 1 / 2)
    have hhi := Int.lt_floor_add_one (place input output i + 1 / 2)
    refine ⟨⌊place input output i + 1 / 2⌋, reads_of_near ?_ ?_, ?_⟩
    · rw [hcenter]
      linarith
    · rw [hcenter]
      linarith
    · rw [IsNearest, abs_le]
      constructor <;> linarith
  · -- the last tap is less than one sample before the end of the window
    have hlo := Int.floor_le ((of input output f).center i + (of input output f).reach)
    have hhi := Int.lt_floor_add_one ((of input output f).center i + (of input output f).reach)
    refine ⟨_, reads_last, ?_⟩
    rw [IsNearest, abs_le]
    constructor <;> linarith

/-- With its center moved by half a sample, a window of next to no reach has the nearest tap. -/
theorem nearest_of_narrow (hinput : 0 < input) (h : input ≤ output)
    (hpos : 0 < f.weighting.support) (hnarrow : f.weighting.support ≤ 1 / 10 ^ 6) (i : Nat) :
    ∃ k, (of input output f).Reads i k ∧ IsNearest input output i k := by
  have hone : (1 : ℚ) ≤ input := by exact_mod_cast hinput
  have hreach : (of input output f).reach = f.weighting.support := by
    rw [reach_of_le hinput h, Interpolation.appliedBlur_of_le (by linarith), mul_one,
      min_eq_left (by linarith)]
  have hcenter : (of input output f).center i = _ := center_eq_place (hinput.trans_le h) i
  rw [offset_of_lt (by linarith)] at hcenter
  have hlo := Int.floor_le ((of input output f).center i + (of input output f).reach)
  have hhi := Int.lt_floor_add_one ((of input output f).center i + (of input output f).reach)
  refine ⟨_, reads_last, ?_⟩
  rw [IsNearest, abs_le]
  constructor <;> linarith

/-- A window that reaches less than half a sample has a single tap. -/
theorem reads_iff_of_reach_lt {a : ScaleAxis ℚ} (hlt : a.reach < 1 / 2) {i : Nat} {k : Int} :
    a.Reads i k ↔ k = ⌊a.center i + a.reach⌋ := by
  have htaps : a.tapCount = 1 := by
    have hceil : ⌈a.reach * 2⌉ ≤ 1 := Int.ceil_le.mpr (by push_cast; linarith)
    rw [tapCount_rat]
    omega
  rw [Reads, start_rat, htaps]
  omega

/-- Where all of an axis is one sample, windows are as wide as the kernel. -/
theorem reach_of_one {n : Nat} (hn : 0 < n) (hlt : f.weighting.support * f.appliedBlur < 1 / 2) :
    (of 1 n f).reach = f.weighting.support * f.appliedBlur := by
  rw [reach_of_le Nat.one_pos hn, Nat.cast_one, min_eq_left hlt.le]

/-- Where one sample is made into many, the middles of the output samples come to lie anywhere. So a
kernel that takes tap `m` for all middles between `a` and `b`, although it is not the nearest to
them, does not keep the nearest. -/
theorem exists_far {a b offset : ℚ} (m : Int) (ha : 0 ≤ a) (hab : a < b) (hb : b ≤ 1)
    (hreach : f.weighting.support * f.appliedBlur < 1 / 2)
    (hoffset : ∀ n, (of 1 n f).offset = offset)
    (htap : ∀ u, a < u → u < b →
      ⌊u - 1 / 2 + offset + f.weighting.support * f.appliedBlur⌋ = m)
    (hfar : ∀ u, a < u → u < b → 1 / 2 + 1 / 10 ^ 6 < |(m : ℚ) - (u - 1 / 2)|) :
    ∃ n i : Nat, i < n ∧ ∀ k, (of 1 n f).Reads i k → ¬IsNearest 1 n i k := by
  obtain ⟨n, i, hi, hlo, hhi⟩ := exists_middle_between ha hab hb
  have hn : 0 < n := Nat.zero_lt_of_lt hi
  have hplace : place 1 n i = ((i : ℚ) + 1 / 2) * (1 / n) - 1 / 2 := by rw [place, Nat.cast_one]
  refine ⟨n, i, hi, fun k hk => ?_⟩
  rw [reads_iff_of_reach_lt (reach_of_one hn hreach ▸ hreach), reach_of_one hn hreach,
    center_eq_place hn, hoffset, hplace, htap _ hlo hhi] at hk
  rw [hk, IsNearest, hplace, not_le]
  exact hfar _ hlo hhi

/-- With its center moved by half a sample, the window of a kernel that reaches farther than a
millionth ends on the sample after the nearest for some output sample. -/
theorem exists_far_of_narrow (hpos : 1 / 10 ^ 6 < f.weighting.support)
    (hlt : f.weighting.support < 1 / 10) :
    ∃ n i : Nat, i < n ∧ ∀ k, (of 1 n f).Reads i k → ¬IsNearest 1 n i k := by
  have hblur := f.appliedBlur_of_le (by linarith)
  refine exists_far 1 (show 0 ≤ 1 - f.weighting.support by linarith)
    (show _ < 1 - 1 / 10 ^ 6 by linarith) (by norm_num) (by rw [hblur]; linarith)
    (fun n => offset_of_lt hlt) (fun u hlo hhi => ?_) fun u hlo hhi => ?_
  · rw [hblur, Int.floor_eq_iff]
    constructor <;> push_cast <;> linarith
  · exact lt_of_lt_of_le (by push_cast; linarith) (le_abs_self _)

/-- With its center in place, the window of a kernel that reaches less than half a sample ends
before the nearest for some output sample. -/
theorem exists_far_of_short (hsupport : 1 / 10 ≤ f.weighting.support)
    (hpos : 0 < f.weighting.support * f.appliedBlur)
    (hlt : f.weighting.support * f.appliedBlur < 1 / 2 - 1 / 10 ^ 6) :
    ∃ n i : Nat, i < n ∧ ∀ k, (of 1 n f).Reads i k → ¬IsNearest 1 n i k := by
  refine exists_far (-1) (show (0 : ℚ) ≤ 1 / 10 ^ 6 by norm_num)
    (show _ < 1 / 2 - f.weighting.support * f.appliedBlur by linarith) (by linarith) (by linarith)
    (fun n => offset_of_le hsupport) (fun u hlo hhi => ?_) fun u hlo hhi => ?_
  · rw [Int.floor_eq_iff]
    constructor <;> push_cast <;> linarith
  · exact lt_of_lt_of_le (by push_cast; linarith) (neg_le_abs _)

end ScaleAxis

namespace Interpolation

variable {f : Interpolation ℚ}

theorem keepsNearest_of_anchored (hpos : 0 < f.weighting.support) (h : f.Anchored) :
    f.KeepsNearest := by
  intro input output colors alpha t ht hle i hi
  have hplaced := LooseTable.placed_scale ht
  obtain ⟨_, haxis, -⟩ := bind_eq_ok_iff.mp ht
  obtain ⟨hinput, -, -⟩ := pos_of_checkAxis haxis
  obtain ⟨k, hk, hnear⟩ := h.elim
    (fun hnarrow => ScaleAxis.nearest_of_narrow hinput hle hpos hnarrow i)
    fun hwide => ScaleAxis.nearest_of_wide hinput hle hwide i
  exact ⟨k, (hplaced.covers_iff_reads hi).mpr hk, hnear⟩

theorem anchored_of_keepsNearest (hpos : 0 < f.weighting.support * f.appliedBlur)
    (h : f.KeepsNearest) : f.Anchored := by
  by_contra hnot
  obtain ⟨hsupport, hwide⟩ := not_or.mp hnot
  rw [not_le] at hsupport hwide
  obtain ⟨n, i, hi, hfar⟩ : ∃ n i : Nat, i < n ∧
      ∀ k, (ScaleAxis.of 1 n f).Reads i k → ¬ScaleAxis.IsNearest 1 n i k := by
    rcases lt_or_ge f.weighting.support (1 / 10) with hlt | hge
    · exact ScaleAxis.exists_far_of_narrow hsupport hlt
    · exact ScaleAxis.exists_far_of_short hge hpos hwide
  -- such a window is that of a table, which then has no nearest tap there
  obtain ⟨t, ht, -⟩ := LooseTable.exists_scale Nat.one_pos (Nat.zero_lt_of_lt hi) Nat.one_pos
    false f
  obtain ⟨k, hk, hnear⟩ := h ht (Nat.zero_lt_of_lt hi) i hi
  rw [(LooseTable.placed_scale ht).covers_iff_reads hi] at hk
  exact hfar k hk hnear

theorem keepsNearest_iff_anchored (hsupport : 0 < f.weighting.support) (hblur : 0 < f.appliedBlur) :
    f.KeepsNearest ↔ f.Anchored :=
  ⟨anchored_of_keepsNearest (mul_pos hsupport hblur), keepsNearest_of_anchored hsupport⟩

/-- A kernel of the box's width is never narrowed, and one of twice that width not to less. -/
theorem anchored_of_support (hblur : 1 / 2 < f.blur)
    (h : f.weighting.support = 1 / 2 ∨ 1 ≤ f.weighting.support) : f.Anchored := by
  refine .inr ?_
  rcases h with h | h
  · rw [appliedBlur_of_le h.le, h]
    norm_num
  · rw [appliedBlur_of_lt (by linarith)]
    nlinarith

theorem appliedBlur_pos (hblur : 1 / 2 < f.blur) : 0 < f.appliedBlur := by
  rcases le_or_gt f.weighting.support (1 / 2) with h | h
  · rw [appliedBlur_of_le h]
    exact one_pos
  · rw [appliedBlur_of_lt h]
    linarith

theorem of_withBlur_eq_ok {i : Interpolation ℚ} {blur : ℚ} (h : i.withBlur blur = .ok f) :
    f.weighting = i.weighting ∧ 1 / 2 < f.blur := by
  unfold withBlur at h
  split at h
  case isTrue hrange =>
    obtain rfl := Except.ok.inj h
    rw [Bool.and_eq_true, Scalar.lt_rat, decide_eq_true_eq] at hrange
    refine ⟨rfl, ?_⟩
    have hlt := hrange.1
    norm_num at hlt
    exact hlt
  case isFalse => cases h

end Interpolation

namespace Filter

variable {sqrt exp sin : ℚ → ℚ}

/-- The support of a Gaussian is three times its deviation. -/
theorem support_gaussian {sigma : ℚ} {f : Interpolation ℚ}
    (h : @Filter.interpolation ℚ (Rational.analytic sqrt exp sin) (.gaussian sigma) = .ok f) :
    0 < sigma ∧ f.weighting.support = 3 * sigma ∧ 1 / 2 < f.blur := by
  obtain ⟨g, hg, rfl⟩ := map_eq_ok_iff.mp h
  unfold Gaussian.ofSigma? at hg
  split at hg
  case isTrue => cases hg
  case isFalse hrange =>
    obtain rfl := Except.ok.inj hg
    simp only [Bool.or_eq_true, Bool.not_eq_true', not_or, Bool.not_eq_false, Scalar.lt_rat,
      decide_eq_true_eq] at hrange
    refine ⟨?_, ?_, by norm_num [Interpolation.plain]⟩
    · have hpos := hrange.1
      norm_num at hpos
      exact hpos
    · norm_num [Interpolation.plain, Gaussian.weighting, Gaussian.support, mul_comm]

/-- Of the other presets, one has next to no support, one that of the box, and all others have twice
that or more. -/
theorem support_of_ne_gaussian {filter : Filter ℚ} {f : Interpolation ℚ}
    (h : @Filter.interpolation ℚ (Rational.analytic sqrt exp sin) filter = .ok f)
    (hfilter : ∀ sigma, filter ≠ .gaussian sigma) :
    (f.weighting.support = 1 / 10 ^ 6 ∨ f.weighting.support = 1 / 2 ∨ 1 ≤ f.weighting.support) ∧
      1 / 2 < f.blur := by
  cases filter with
  | gaussian sigma => exact absurd rfl (hfilter sigma)
  | cubicSmoother =>
    obtain ⟨hweighting, hblur⟩ := Interpolation.of_withBlur_eq_ok h
    rw [hweighting]
    exact ⟨.inr (.inr (Weighting.cubicOf_wide (by norm_num)).le), hblur⟩
  | mitchell =>
    obtain rfl := Except.ok.inj h
    exact ⟨.inr (.inr (Weighting.cubicOf_wide (by norm_num)).le), by norm_num [Interpolation.plain]⟩
  | catmullRom =>
    obtain rfl := Except.ok.inj h
    exact ⟨.inr (.inr (Weighting.cubicOf_wide (by norm_num)).le), by norm_num [Interpolation.plain]⟩
  | cubic =>
    obtain rfl := Except.ok.inj h
    exact ⟨.inr (.inr (Weighting.cubicOf_wide (by norm_num)).le), by norm_num [Interpolation.plain]⟩
  | nearest =>
    obtain rfl := Except.ok.inj h
    norm_num [Interpolation.plain, Weighting.point]
  | average =>
    obtain rfl := Except.ok.inj h
    norm_num [Interpolation.plain, Weighting.box]
  | linear =>
    obtain rfl := Except.ok.inj h
    norm_num [Interpolation.plain, Weighting.linear]
  | hermite =>
    obtain rfl := Except.ok.inj h
    norm_num [Interpolation.plain, Weighting.hermite, Weighting.cubicOf]
  | quadratic =>
    obtain rfl := Except.ok.inj h
    norm_num [Interpolation.plain, Weighting.quadraticOf]
  | lanczos =>
    obtain rfl := Except.ok.inj h
    norm_num [Interpolation.plain, Weighting.lanczosOf]
  | spline36 =>
    obtain rfl := Except.ok.inj h
    norm_num [Interpolation.plain, Weighting.spline36]

end Filter

namespace Settings

variable {sqrt exp sin : ℚ → ℚ} {s : Settings ℚ} {f : Interpolation ℚ}

/-- The kernel is that of the filter, with a factor that the filter or the settings name. -/
theorem exists_filter_interpolation
    (h : @Settings.interpolation ℚ (Rational.analytic sqrt exp sin) s = .ok f) :
    ∃ i, @Filter.interpolation ℚ (Rational.analytic sqrt exp sin) s.filter = .ok i ∧
      f.weighting = i.weighting ∧ (1 / 2 < i.blur → 1 / 2 < f.blur) := by
  obtain ⟨i, hi, h⟩ := bind_eq_ok_iff.mp h
  refine ⟨i, hi, ?_⟩
  split at h
  case isTrue =>
    obtain rfl := Except.ok.inj h
    exact ⟨rfl, id⟩
  case isFalse =>
    obtain ⟨hweighting, hblur⟩ := Interpolation.of_withBlur_eq_ok h
    exact ⟨hweighting, fun _ => hblur⟩

/-- In exact arithmetic, every preset with every factor that is accepted keeps the nearest sample
where an axis is enlarged, except for Gaussians. A Gaussian does so exactly if three deviations are
no more than a millionth, or if, widened as they are, they reach to within a millionth of half a
sample. -/
theorem keepsNearest_iff
    (h : @Settings.interpolation ℚ (Rational.analytic sqrt exp sin) s = .ok f) :
    f.KeepsNearest ↔ ∀ sigma, s.filter = .gaussian sigma →
      3 * sigma ≤ 1 / 10 ^ 6 ∨ 1 / 2 - 1 / 10 ^ 6 ≤ 3 * sigma * f.appliedBlur := by
  obtain ⟨i, hi, hweighting, hblur⟩ := exists_filter_interpolation h
  by_cases hgaussian : ∃ sigma, s.filter = .gaussian sigma
  · obtain ⟨sigma, hsigma⟩ := hgaussian
    rw [hsigma] at hi
    obtain ⟨hpos, hsupport, hfactor⟩ := Filter.support_gaussian hi
    rw [← hweighting] at hsupport
    rw [Interpolation.keepsNearest_iff_anchored (by linarith)
      (Interpolation.appliedBlur_pos (hblur hfactor)), Interpolation.Anchored, hsupport]
    simp only [hsigma, Filter.gaussian.injEq, forall_eq']
  · rw [not_exists] at hgaussian
    obtain ⟨hsupport, hfactor⟩ := Filter.support_of_ne_gaussian hi hgaussian
    rw [← hweighting] at hsupport
    refine iff_of_true ?_ fun sigma hsigma => absurd hsigma (hgaussian sigma)
    rcases hsupport with hpoint | hwide
    · exact Interpolation.keepsNearest_of_anchored (by rw [hpoint]; norm_num) (.inl hpoint.le)
    · refine Interpolation.keepsNearest_of_anchored ?_
        (Interpolation.anchored_of_support (hblur hfactor) hwide)
      rcases hwide with h | h <;> linarith

/-- Every positive deviation is accepted. -/
theorem exists_gaussian (width height : UInt32) {sigma : ℚ} (hpos : 0 < sigma)
    (sharpen : SharpenSettings ℚ) :
    ∃ f, @Settings.interpolation ℚ (Rational.analytic sqrt exp sin)
      ⟨width, height, .gaussian sigma, 1, sharpen⟩ = .ok f ∧ f.appliedBlur = 1 := by
  have hsigma : (0.0 : ℚ) < sigma := by
    norm_num
    exact hpos
  have hg : @Gaussian.ofSigma? ℚ (Rational.analytic sqrt exp sin) sigma = .ok _ :=
    if_neg (by simp [hsigma])
  refine ⟨.plain _, bind_eq_ok_iff.mpr ⟨.plain _, map_eq_ok_iff.mpr ⟨_, hg, rfl⟩, if_pos ?_⟩, ?_⟩
  · exact decide_eq_true (by norm_num)
  · rw [Interpolation.appliedBlur]
    split <;> norm_num [Interpolation.plain]

/-- A narrowed cubic keeps the nearest sample, and so does a Gaussian of deviation 1/5. -/
theorem keepsNearest_of_catmullRom :
    (∃ f, @Settings.interpolation ℚ (Rational.analytic (fun _ => 1) (fun _ => 1) fun _ => 0)
        ⟨5, 5, .catmullRom, 3 / 4, .off⟩ = .ok f ∧ f.KeepsNearest) ∧
      ∃ f, @Settings.interpolation ℚ (Rational.analytic (fun _ => 1) (fun _ => 1) fun _ => 0)
        ⟨5, 5, .gaussian (1 / 5), 1, .off⟩ = .ok f ∧ f.KeepsNearest := by
  constructor
  · have hf : @Settings.interpolation ℚ (Rational.analytic (fun _ => 1) (fun _ => 1) fun _ => 0)
        ⟨5, 5, .catmullRom, 3 / 4, .off⟩ = .ok ⟨.catmullRom, 3 / 4⟩ :=
      bind_eq_ok_iff.mpr ⟨_, rfl, (if_neg (by decide +kernel)).trans (if_pos (by decide +kernel))⟩
    exact ⟨_, hf, (keepsNearest_iff hf).mpr nofun⟩
  · obtain ⟨f, hf, hblur⟩ := exists_gaussian 5 5 (show (0 : ℚ) < 1 / 5 by norm_num) .off
    refine ⟨f, hf, (keepsNearest_iff hf).mpr fun sigma hsigma => .inr ?_⟩
    cases hsigma
    rw [hblur]
    norm_num

/-- Three samples are made into four by a Gaussian of deviation 1/20. The window of the second one
has no sample but the first, which is more than half a sample away. -/
theorem far_of_narrow_gaussian :
    ∃ f t, @Settings.interpolation ℚ (Rational.analytic (fun _ => 1) (fun _ => 1) fun _ => 0)
        ⟨4, 1, .gaussian (1 / 20), 1, .off⟩ = .ok f ∧
      LooseTable.scale 3 4 1 false f = .ok t ∧
        ¬∃ k, t.Covers 1 k ∧ ScaleAxis.IsNearest 3 4 1 k := by
  obtain ⟨f, hf, hblur⟩ := exists_gaussian 4 1 (show (0 : ℚ) < 1 / 20 by norm_num) .off
  obtain ⟨i, hi, hweighting, -⟩ := exists_filter_interpolation hf
  obtain ⟨-, hsupport, -⟩ := Filter.support_gaussian hi
  rw [← hweighting] at hsupport
  obtain ⟨t, ht, -⟩ := LooseTable.exists_scale (by decide : 0 < 3) (by decide : 0 < 4) Nat.one_pos
    false f
  refine ⟨f, t, hf, ht, ?_⟩
  have hreach : (ScaleAxis.of 3 4 f).reach = 3 / 20 := by
    rw [ScaleAxis.reach_of_le (by decide) (by decide), hblur, hsupport]
    norm_num
  rintro ⟨k, hk, hnear⟩
  rw [(LooseTable.placed_scale ht).covers_iff_reads (by decide),
    ScaleAxis.reads_iff_of_reach_lt (by rw [hreach]; norm_num), hreach,
    ScaleAxis.center_eq_place (by decide), ScaleAxis.offset_of_le (by rw [hsupport]; norm_num)]
    at hk
  subst hk
  revert hnear
  decide +kernel

end Settings

end Resampler
