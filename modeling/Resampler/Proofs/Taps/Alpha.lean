import Resampler.Proofs.Convolution.Monotone
import Resampler.Proofs.FixedPoint.Quantized
import Resampler.Proofs.Taps.Replicated

/-!
The weights of alpha.

An alpha channel is interpolated by a kernel that has no negative lobes: where the kernel of the
colors is wide and may have some, alpha gets the cubic without. The values of such a kernel are
not negative, divided by their sum they are the weights of an average, and folding the ends
of a window keeps them so. What stands between this and a table that cannot ring is that weights
are rounded. In exact arithmetic, windows of up to 257 taps come through unharmed, for every preset;
the average of 286 samples already takes the first of them away from the others.
-/

namespace Resampler

namespace LooseTaps

/-- The weights that a loose window has for a channel are those of an average. -/
structure AveragesIn (e : LooseTaps) (tapCount channels c : Nat) : Prop where
  nonneg : ∀ j < tapCount, 0 ≤ e.weights.getD (j * channels + c) 0
  sum_eq : ∑ j ∈ Finset.range tapCount, e.weights.getD (j * channels + c) 0 = FixedPoint.one

variable {e : LooseTaps} {inputSize tapCount channels c : Nat}

/-- What lands on a sample is some of the weights. -/
theorem AveragesIn.landing_mem (h : e.AveragesIn tapCount channels c) (inputSize s : Nat) :
    0 ≤ landing inputSize tapCount channels e c s ∧
      landing inputSize tapCount channels e c s ≤ FixedPoint.one := by
  have hterm : ∀ j ∈ Finset.range tapCount,
      0 ≤ (if nearestSample inputSize (e.start + j) = s
        then e.weights.getD (j * channels + c) 0 else 0) ∧
      (if nearestSample inputSize (e.start + j) = s
        then e.weights.getD (j * channels + c) 0 else 0) ≤ e.weights.getD (j * channels + c) 0 := by
    intro j hj
    have hweight := h.nonneg j (Finset.mem_range.mp hj)
    split
    · exact ⟨hweight, le_rfl⟩
    · exact ⟨le_rfl, hweight⟩
  rw [landing, ← h.sum_eq]
  exact ⟨Finset.sum_nonneg fun j hj => (hterm j hj).1,
    Finset.sum_le_sum fun j hj => (hterm j hj).2⟩

theorem AveragesIn.fits_landing (h : e.AveragesIn tapCount channels c) (s : Nat) :
    Word.Fits32 (landing inputSize tapCount channels e c s) := by
  obtain ⟨hlo, hhi⟩ := h.landing_mem inputSize s
  simp only [FixedPoint.one] at hhi
  constructor <;> omega

end LooseTaps

/-- Confining keeps the weights of an average. -/
theorem LooseTable.averagesAt_confine {t : LooseTable} (hinput : 0 < t.inputSize) {i c : Nat}
    (hi : i < t.windows.size) (hc : c < t.channels)
    (h : t.windows[i].AveragesIn t.tapCount t.channels c) : t.confine.AveragesAt i c where
  nonneg j hj := by
    rw [TapTable.weight, window_confine t hi]
    refine le_of_le_of_eq ?_ (LooseTaps.weight_confine_eq_landing hinput _ hj hc).symm
    rw [(h.fits_landing _).signed32_eq]
    exact (h.landing_mem _ _).1
  sum_eq := by
    have hsum := LooseTaps.sum_weights_mul hinput t.windows[i] hc
      (fun s _ => h.fits_landing s) fun _ => 1
    simp only [mul_one, h.sum_eq] at hsum
    simp only [TapTable.weight]
    rw [window_confine t hi]
    exact hsum

/-- The alpha of a tap has the alpha weight. -/
theorem getD_interleave_alpha {colors : Nat} {qs as : List Int} (hlen : as.length = qs.length)
    (j : Nat) (hj : j < as.length) :
    (interleave colors qs (some as)).getD (j * (colors + 1) + colors) 0 = as[j] := by
  rw [getD_interleave_some (by omega) hlen (Nat.lt_succ_self colors), if_neg (lt_irrefl colors)]

/-- What a table for a change of size is made of if it has an alpha channel after the colors: in each
of its loose windows, alpha has the words of its own kernel. -/
structure LooseTable.WithAlpha {α : Type} [Scalar α] (axis : ScaleAxis α) (f : Interpolation α)
    (input colors : Nat) (loose : LooseTable) : Prop where
  input_pos : 0 < input
  inputSize_eq : loose.inputSize = input
  tapCount_eq : loose.tapCount = axis.tapCount
  channels_eq : loose.channels = colors + 1
  start_eq : ∀ i (hi : i < loose.windows.size), loose.windows[i].start = axis.start i
  weight_eq : ∀ i (hi : i < loose.windows.size), ∀ j (hj : j < (axis.weights f i).length),
    loose.windows[i].weights.getD (j * (colors + 1) + colors) 0 = (axis.weights f i)[j]

theorem LooseTable.withAlpha_scale {α : Type} [Scalar α] {input output colors : Nat}
    {f : Interpolation α} {loose : LooseTable}
    (h : scale input output colors true f = .ok loose) :
    loose.WithAlpha (ScaleAxis.of input output f) f.forAlpha input colors ∧
      loose.windows.size = output := by
  obtain ⟨_, haxis, h⟩ := bind_eq_ok_iff.mp h
  obtain ⟨hinput, -, -⟩ := pos_of_checkAxis haxis
  cases h
  refine ⟨⟨hinput, rfl, rfl, rfl, fun i hi => ?_, fun i hi j hj => ?_⟩, by simp⟩
  · simp only [List.getElem_toArray, List.getElem_map, List.getElem_range]
  · have hlen : ((ScaleAxis.of input output f).weights f.forAlpha i).length =
        ((ScaleAxis.of input output f).weights f i).length :=
      (length_weights_scale _ f.forAlpha i).trans (length_weights_scale _ f i).symm
    simp only [List.getElem_toArray, List.getElem_map, List.getElem_range, if_true]
    exact getD_interleave_alpha hlen j hj

namespace TapTable

section Scale

variable {α : Type} [Scalar α] {input output colors : Nat} {f : Interpolation α} {t : TapTable}
  {i : Nat} (h : scale input output colors true f = .ok t) (hi : i < output)
include h hi

/-- If the words of its kernel are those of an average, so are the weights of alpha. -/
theorem averagesAt_alpha
    (hnonneg : ∀ q ∈ (ScaleAxis.of input output f).weights f.forAlpha i, 0 ≤ q)
    (hsum : ((ScaleAxis.of input output f).weights f.forAlpha i).sum = FixedPoint.one) :
    t.AveragesAt i colors := by
  obtain ⟨loose, hloose, rfl⟩ := map_eq_ok_iff.mp h
  obtain ⟨hmade, hsize⟩ := LooseTable.withAlpha_scale hloose
  have hwindow : i < loose.windows.size := hsize.symm ▸ hi
  have halpha := LooseTable.length_weights_scale (ScaleAxis.of input output f) f.forAlpha i
  refine LooseTable.averagesAt_confine (hmade.inputSize_eq.symm ▸ hmade.input_pos) hwindow
    (by rw [hmade.channels_eq]; exact Nat.lt_succ_self colors) ?_
  rw [hmade.tapCount_eq, hmade.channels_eq, ← halpha]
  constructor
  · intro j hj
    rw [hmade.weight_eq i hwindow j hj]
    exact hnonneg _ (List.getElem_mem _)
  · rw [sum_range_getElem (hmade.weight_eq i hwindow)]
    exact hsum

/-- In a window that lies on the axis, the weights of alpha are the words of its kernel. -/
theorem weight_alpha_of_inside (hstart : 0 ≤ (ScaleAxis.of input output f).start i)
    (hend : (ScaleAxis.of input output f).start i + (ScaleAxis.of input output f).tapCount ≤ input)
    {j : Nat} (hj : j < ((ScaleAxis.of input output f).weights f.forAlpha i).length) :
    t.weight i j colors =
      Word.signed32 ((ScaleAxis.of input output f).weights f.forAlpha i)[j] := by
  obtain ⟨loose, hloose, rfl⟩ := map_eq_ok_iff.mp h
  obtain ⟨hmade, hsize⟩ := LooseTable.withAlpha_scale hloose
  have hwindow : i < loose.windows.size := hsize.symm ▸ hi
  have halpha := LooseTable.length_weights_scale (ScaleAxis.of input output f) f.forAlpha i
  rw [weight, LooseTable.window_confine loose hwindow]
  simp only [LooseTable.confine, hmade.channels_eq]
  rw [LooseTaps.weight_confine_of_inside (hmade.inputSize_eq.symm ▸ hmade.input_pos) _
    ((hmade.start_eq i hwindow).symm ▸ hstart) ?_ (hmade.tapCount_eq.symm ▸ halpha ▸ hj)
    (Nat.lt_succ_self colors), hmade.weight_eq i hwindow j hj]
  rwa [hmade.start_eq i hwindow, hmade.tapCount_eq, hmade.inputSize_eq]

end Scale

end TapTable

namespace FixedPoint

theorem shares_impulse {n : Nat} (hn : 0 < n) : Shares (impulse n) where
  nonneg w hw := by
    obtain ⟨j, -, rfl⟩ := List.mem_map.mp hw
    split <;> norm_num
  sum_eq := by
    have hmiddle : n / 2 < n := Nat.div_lt_self hn one_lt_two
    have hlist : (impulse n : List ℚ).sum =
        ∑ j ∈ Finset.range n, if j = n / 2 then (1.0 : ℚ) else 0.0 := rfl
    rw [hlist, Rational.zero_eq, Finset.sum_ite_eq', if_pos (Finset.mem_range.mpr hmiddle)]
    norm_num

/-- Values divided by their sum sum to one, and so do those that cannot be divided by it. -/
theorem sum_normalize {ws : List ℚ} (hne : ws ≠ []) : (normalize ws).sum = 1 := by
  simp only [normalize, Scalar.sum_rat, Scalar.eq_rat, Scalar.isFinite_rat, Rational.zero_eq,
    Rational.one_eq, Bool.not_true, Bool.or_false, decide_eq_true_eq]
  split
  case isTrue => exact (shares_impulse (List.length_pos_iff.mpr hne)).sum_eq
  case isFalse hsum => rw [List.sum_map_mul_right, List.map_id', mul_one_div_cancel hsum]

/-- Values that are not negative, divided by their sum, are the weights of an average; if they
are all zero, the middle one is taken for one. -/
theorem shares_normalize {ws : List ℚ} (hne : ws ≠ []) (h : ∀ w ∈ ws, 0 ≤ w) :
    Shares (normalize ws) := by
  refine ⟨fun w hw => ?_, sum_normalize hne⟩
  simp only [normalize, Scalar.sum_rat, Rational.one_eq] at hw
  split at hw
  case isTrue => exact (shares_impulse (List.length_pos_iff.mpr hne)).nonneg w hw
  case isFalse =>
    obtain ⟨v, hv, rfl⟩ := List.mem_map.mp hw
    exact mul_nonneg (h v hv) (one_div_nonneg.mpr (List.sum_nonneg h))

end FixedPoint

/-- No value of the weighting function is negative. -/
structure Interpolation.Nonneg (f : Interpolation ℚ) : Prop where
  value_nonneg : ∀ d, 0 ≤ d → 0 ≤ f.weighting.value d
  blur_nonneg : 0 ≤ f.appliedBlur

namespace ScaleAxis

/-- The values of such a function in a window, divided by their sum. -/
theorem shares_window {a : ScaleAxis ℚ} (hinput : 0 ≤ a.input) (houtput : 0 ≤ a.output)
    {f : Interpolation ℚ} (hf : f.Nonneg) (i : Nat) :
    FixedPoint.Shares (FixedPoint.normalize (a.window f i)) := by
  have hshrink : 0 ≤ a.shrink := by
    rw [shrink, Scalar.least_rat]
    exact le_min (div_nonneg houtput hinput) (by norm_num)
  refine FixedPoint.shares_normalize (a.window_ne_nil f i) fun w hw => ?_
  obtain ⟨j, -, rfl⟩ := List.mem_map.mp hw
  rw [Scalar.abs_rat]
  exact hf.value_nonneg _ (mul_nonneg (abs_nonneg _) (div_nonneg hshrink hf.blur_nonneg))

/-- A window has no more taps than the axis has samples. -/
theorem tapCount_le {input : Nat} (hinput : 0 < input) (output : Nat) (f : Interpolation ℚ) :
    (ScaleAxis.of input output f).tapCount ≤ input := by
  have hreach : (ScaleAxis.of input output f).reach * 2.0 ≤ ((input : Int) : ℚ) := by
    rw [reach, Scalar.least_rat, Rational.two_eq, ← le_div_iff₀ two_pos]
    exact min_le_right _ _
  have hceil := Int.ceil_le.mpr hreach
  rw [tapCount, Scalar.ceil_rat]
  omega

end ScaleAxis

/-- With windows of up to 257 taps, the weights of alpha are those of an average. -/
theorem TapTable.averagesAt_alpha_of_le {input output colors : Nat} {f : Interpolation ℚ}
    {t : TapTable} (h : scale input output colors true f = .ok t) (hf : f.forAlpha.Nonneg)
    (htaps : t.tapCount ≤ 257) {i : Nat} (hi : i < output) : t.AveragesAt i colors := by
  have hcount : (ScaleAxis.of input output f).tapCount = t.tapCount := by
    obtain ⟨loose, hloose, rfl⟩ := map_eq_ok_iff.mp h
    obtain ⟨hmade, -⟩ := LooseTable.withAlpha_scale hloose
    simp only [LooseTable.confine, hmade.tapCount_eq, hmade.inputSize_eq]
    exact (Nat.min_eq_left (ScaleAxis.tapCount_le hmade.input_pos output f)).symm
  have havg := ScaleAxis.shares_window (a := ScaleAxis.of input output f)
    (Nat.cast_nonneg input) (Nat.cast_nonneg output) hf i
  have hlen : (FixedPoint.normalize
      ((ScaleAxis.of input output f).window f.forAlpha i)).length ≤ 257 := by
    rwa [FixedPoint.length_normalize, ScaleAxis.window, List.length_map, List.length_range, hcount]
  exact averagesAt_alpha h hi (havg.quantize_nonneg hlen) (havg.sum_quantize_eq hlen)

namespace Weighting

theorem point_nonneg (d : ℚ) (_ : 0 ≤ d) : 0 ≤ (point : Weighting ℚ).value d := by
  norm_num [point]

theorem box_nonneg (d : ℚ) (_ : 0 ≤ d) : 0 ≤ (box : Weighting ℚ).value d := by
  rw [box]
  dsimp only
  split <;> norm_num

theorem linear_nonneg (d : ℚ) (_ : 0 ≤ d) : 0 ≤ (linear : Weighting ℚ).value d := by
  rw [linear, Rational.one_eq]
  dsimp only
  split
  case isTrue h => exact sub_nonneg.mpr (of_decide_eq_true h).le
  case isFalse => norm_num

theorem hermite_nonneg (d : ℚ) (h : 0 ≤ d) : 0 ≤ (hermite : Weighting ℚ).value d := by
  simp only [hermite, cubicOf, Cubic.ofShape, Scalar.eq_rat, Scalar.lt_rat]
  norm_num
  split
  case isTrue hlt =>
    -- the middle piece is `(1 - d) ^ 2 * (1 + 2 * d)`
    nlinarith [sq_nonneg (1 - d), mul_nonneg h (sq_nonneg (1 - d))]
  case isFalse => exact le_rfl

/-- Of the cubics, only the one without negative lobes has a narrow support. -/
theorem cubicOf_wide {b c : ℚ} (h : c ≠ 0) : 1 < (cubicOf b c).support := by
  simp only [cubicOf, Scalar.eq_rat, Rational.zero_eq, decide_eq_false h, Bool.and_false]
  norm_num

end Weighting

namespace Interpolation

theorem nonneg_plain {w : Weighting ℚ} (h : ∀ d, 0 ≤ d → 0 ≤ w.value d) : (plain w).Nonneg where
  value_nonneg := h
  blur_nonneg := by
    rw [appliedBlur, plain]
    split <;> norm_num

theorem nonneg_hermite : (plain .hermite : Interpolation ℚ).Nonneg :=
  nonneg_plain Weighting.hermite_nonneg

/-- Where a kernel is wide, alpha has the other one. -/
theorem nonneg_forAlpha_of_wide {f : Interpolation ℚ} (h : 1 < f.weighting.support) :
    f.forAlpha.Nonneg := by
  rw [forAlpha, Scalar.lt_rat, Rational.one_eq, decide_eq_true h, if_pos rfl]
  exact nonneg_hermite

theorem Nonneg.forAlpha {f : Interpolation ℚ} (h : f.Nonneg) : f.forAlpha.Nonneg := by
  rw [Interpolation.forAlpha]
  split
  · exact nonneg_hermite
  · exact h

end Interpolation

/-- The rationals, with any functions in place of those that they do not have. -/
abbrev Rational.analytic (sqrt exp sin : ℚ → ℚ) : Analytic ℚ :=
  { toScalar := inferInstance, sqrt, exp, sin }

namespace Filter

variable {sqrt exp sin : ℚ → ℚ}

theorem gaussian_nonneg (hsqrt : ∀ x, 0 ≤ sqrt x) (hexp : ∀ x, 0 ≤ exp x) {sigma : ℚ}
    {g : Gaussian ℚ} (h : @Gaussian.ofSigma? ℚ (Rational.analytic sqrt exp sin) sigma = .ok g)
    (d : ℚ) (_ : 0 ≤ d) :
    0 ≤ (@Gaussian.weighting ℚ (Rational.analytic sqrt exp sin) g).value d := by
  unfold Gaussian.ofSigma? at h
  split at h
  · cases h
  · cases h
    simp only [Gaussian.weighting, Gaussian.bell]
    split
    · exact mul_nonneg (div_nonneg (by norm_num) (hsqrt _)) (hexp _)
    · norm_num

/-- Whatever preset the colors have, the kernel of alpha has no negative lobes. -/
theorem nonneg_forAlpha (hsqrt : ∀ x, 0 ≤ sqrt x) (hexp : ∀ x, 0 ≤ exp x) {filter : Filter ℚ}
    {f : Interpolation ℚ}
    (h : @Filter.interpolation ℚ (Rational.analytic sqrt exp sin) filter = .ok f) :
    f.forAlpha.Nonneg := by
  cases filter with
  | nearest =>
    obtain rfl := Except.ok.inj h
    exact (Interpolation.nonneg_plain Weighting.point_nonneg).forAlpha
  | average =>
    obtain rfl := Except.ok.inj h
    exact (Interpolation.nonneg_plain Weighting.box_nonneg).forAlpha
  | linear =>
    obtain rfl := Except.ok.inj h
    exact (Interpolation.nonneg_plain Weighting.linear_nonneg).forAlpha
  | hermite =>
    obtain rfl := Except.ok.inj h
    exact Interpolation.nonneg_hermite.forAlpha
  | gaussian sigma =>
    obtain ⟨g, hg, rfl⟩ := map_eq_ok_iff.mp h
    exact (Interpolation.nonneg_plain (gaussian_nonneg hsqrt hexp hg)).forAlpha
  -- all others reach farther than one sample
  | quadratic =>
    obtain rfl := Except.ok.inj h
    refine Interpolation.nonneg_forAlpha_of_wide ?_
    norm_num [Interpolation.plain, Weighting.quadraticOf]
  | mitchell =>
    obtain rfl := Except.ok.inj h
    exact Interpolation.nonneg_forAlpha_of_wide (Weighting.cubicOf_wide (by norm_num))
  | catmullRom =>
    obtain rfl := Except.ok.inj h
    exact Interpolation.nonneg_forAlpha_of_wide (Weighting.cubicOf_wide (by norm_num))
  | cubic =>
    obtain rfl := Except.ok.inj h
    exact Interpolation.nonneg_forAlpha_of_wide (Weighting.cubicOf_wide (by norm_num))
  | cubicSmoother =>
    change (Interpolation.plain (Weighting.cubicOf 0.0 0.625)).withBlur 1.15 = .ok f at h
    rw [Interpolation.withBlur] at h
    split at h
    · obtain rfl := Except.ok.inj h
      exact Interpolation.nonneg_forAlpha_of_wide (Weighting.cubicOf_wide (by norm_num))
    · cases h
  | lanczos =>
    obtain rfl := Except.ok.inj h
    refine Interpolation.nonneg_forAlpha_of_wide ?_
    norm_num [Interpolation.plain, Weighting.lanczosOf]
  | spline36 =>
    obtain rfl := Except.ok.inj h
    refine Interpolation.nonneg_forAlpha_of_wide ?_
    norm_num [Interpolation.plain, Weighting.spline36]

end Filter

namespace TapTable

open FixedPoint

/-- Rounding keeps weights from becoming negative as long as the words of all taps but the largest
sum to no more than one. In exact arithmetic, that is so for all averages of `n` taps exactly if `n`
is no more than 257. Then, whatever preset the colors have, the weights of alpha in windows of `n`
taps are those of an average: none of them is negative. -/
theorem alpha_averages_of_le (n : Nat) :
    (∀ {α : Type} [Scalar α] {ws : List α}, ws ≠ [] → (∀ w ∈ ws, 0 ≤ quantizeTap w) →
      Word.Fits32 (one - restSum ws) → ((∀ q ∈ quantize ws, 0 ≤ q) ↔ restSum ws ≤ one)) ∧
    ((∀ ws : List ℚ, ws.length = n → Shares ws → ∀ q ∈ quantize ws, 0 ≤ q) ↔ n ≤ 257) ∧
    (n ≤ 257 → ∀ {sqrt exp sin : ℚ → ℚ}, (∀ x, 0 ≤ sqrt x) → (∀ x, 0 ≤ exp x) →
      ∀ {filter : Filter ℚ} {f : Interpolation ℚ},
        @Filter.interpolation ℚ (Rational.analytic sqrt exp sin) filter = .ok f →
          ∀ {input output colors : Nat} {t : TapTable},
            scale input output colors true f = .ok t → t.tapCount = n →
              ∀ i < output, t.AveragesAt i colors) := by
  refine ⟨quantize_nonneg_iff, forall_quantize_nonneg_iff n, ?_⟩
  rintro hn sqrt exp sin hsqrt hexp filter f hf input output colors t ht rfl i hi
  exact averagesAt_alpha_of_le ht (Filter.nonneg_forAlpha hsqrt hexp hf) hn hi

/-- Twelve samples are made into five by a cubic with negative lobes, and alpha by the other one. -/
theorem alpha_averages_of_mitchell :
    ∃ f t, @Filter.interpolation ℚ (Rational.analytic (fun _ => 1) (fun _ => 1) fun _ => 0)
        .mitchell = .ok f ∧
      scale 12 5 3 true f = .ok t ∧ t.AveragesAt 2 3 ∧
        (∀ q ∈ quantize (List.replicate 3 (1 / 3 : ℚ)), 0 ≤ q) ∧
          ∀ q ∈ quantize (List.replicate 2 (1 / 2 : ℚ)), 0 ≤ q := by
  obtain ⟨t, ht⟩ := exists_scale (by decide : 0 < 12) (by decide : 0 < 5) (by decide : 0 < 3) true
    (.plain .mitchell : Interpolation ℚ)
  have htaps : t.tapCount ≤ 257 := by
    have hshape := wellFormed_scale ht
    have hinside := hshape.confined.inside 0 (by rw [hshape.outputSize_eq]; decide)
    rw [hshape.inputSize_eq] at hinside
    omega
  have hmitchell : @Filter.interpolation ℚ (Rational.analytic (fun _ => 1) (fun _ => 1) fun _ => 0)
      .mitchell = .ok (.plain .mitchell) := rfl
  have hthirds : Shares (List.replicate 3 (1 / 3 : ℚ)) := ⟨by decide +kernel, by decide +kernel⟩
  obtain ⟨-, -, hpresets⟩ := alpha_averages_of_le t.tapCount
  obtain ⟨hscalar, hexact, -⟩ := alpha_averages_of_le 3
  refine ⟨_, t, hmitchell, ht, ?_, ?_, ?_⟩
  · exact hpresets htaps (fun _ => zero_le_one) (fun _ => zero_le_one) hmitchell ht rfl 2
      (by decide)
  · exact hexact.mpr (by decide) _ rfl hthirds
  · exact (hscalar (by decide) (by decide +kernel) (by decide +kernel)).mpr (by decide +kernel)

/-- In the average of 286 samples the first of them has a weight of -7, in alpha as well. -/
theorem alpha_negative_of_average :
    ∃ t, scale 286 1 1 true (.plain .box : Interpolation ℚ) = .ok t ∧ t.weight 0 0 1 < 0 := by
  obtain ⟨t, ht⟩ := exists_scale (by decide : 0 < 286) (by decide : 0 < 1) (by decide : 0 < 1) true
    (.plain .box : Interpolation ℚ)
  have hstart : (ScaleAxis.of 286 1 (.plain .box : Interpolation ℚ)).start 0 = 0 := by
    decide +kernel
  have htaps : (ScaleAxis.of 286 1 (.plain .box : Interpolation ℚ)).tapCount = 286 := by
    decide +kernel
  have hfirst : ((ScaleAxis.of 286 1 (.plain .box : Interpolation ℚ)).weights
      (Interpolation.plain .box).forAlpha 0)[0]? = some (-7) := by decide +kernel
  obtain ⟨hlen, hword⟩ := List.getElem?_eq_some_iff.mp hfirst
  refine ⟨t, ht, ?_⟩
  rw [weight_alpha_of_inside ht one_pos hstart.ge (by rw [hstart, htaps]; decide) hlen, hword]
  decide

end TapTable

end Resampler
