import Resampler.Proofs.Binary64.Exponential
import Resampler.Proofs.Taps.Peaked

/-!
Whether a blur is centered.

A blur is computed in doubles, with an exponential function of which little is known. As long as
the square of its deviation can be told from zero, a Gaussian falls from its middle by more than
rounding could make up for, and its windows are symmetric around their own sample. A deviation may
be so small that its square vanishes. The middle of the bell is zero divided by zero then, no weight
is a number, and the sample before gets all that the words sum to.
-/

namespace Resampler

open Binary64

/-! ### A width that does not vanish -/

namespace Gaussian

/-- What is known of a Gaussian: `δ` is twice the square of its deviation, and `h` its height. -/
structure Measured (g : Gaussian Float) (δ h : ℝ) : Prop where
  width : Is (2.0 * g.sigma * g.sigma) δ
  width_pos : 0 < δ
  width_le : δ ≤ 2 ^ (47 : ℤ)
  scale : Is g.scale h
  le_height : 2 ^ (-25 : ℤ) ≤ h
  height_le : h ≤ 2 ^ (537 : ℤ)

theorem neg_square_zero : Is (-(Scalar.ofNat 0 * Scalar.ofNat 0) : Float) 0 := rfl

theorem tau_value : ∃ c : ℝ, Is (2.0 * (Weighting.pi : Float)) c ∧ 4 ≤ c ∧ c ≤ 8 := by
  have h : Is (2.0 * (Weighting.pi : Float)) ((7074237752028440 : ℕ) * 2 ^ (-50 : ℤ)) :=
    Is.of_unpack rfl
  exact ⟨_, h, by norm_num, by norm_num⟩

theorem limit_value : Is 8388608.0 (2 ^ (23 : ℤ)) := by
  have h : Is 8388608.0 ((4503599627370496 : ℕ) * 2 ^ (-29 : ℤ)) := Is.of_unpack rfl
  norm_num at h ⊢
  exact h

/-- Twice the square of a deviation is not rounded beyond twice its size. -/
theorem exists_width {x : Float} {s : ℝ} (hs : 0 < s) (hle : s ≤ 2 ^ (23 : ℤ)) (hx : Is x s) :
    ∃ δ, Is (2.0 * x * x) δ ∧ 0 ≤ δ ∧ δ ≤ 2 ^ (47 : ℤ) ∧ δ ≤ 4 * (s * s) := by
  have hdouble := hx.isDouble hs.le
  have htwice := hdouble.mul_pow 1 ((by norm_num at hle ⊢; linarith : s * 2 ^ 1 < 2 ^ 27).trans
    (pow_lt_pow_right₀ one_lt_two (by norm_num)))
  rw [pow_one, mul_comm] at htwice
  have hdelta := Is.mul zero_le_two hs.le is_two hx htwice
  have hsquare : 2 * s * s ≤ 2 * 2 ^ (23 : ℤ) * 2 ^ (23 : ℤ) := by gcongr
  obtain ⟨δ, hδ, hrounded, hlo, hhi⟩ := Is.exists_between
    (mul_rounded (by positivity) hs.le hdelta hx) isDouble_zero
    (isDouble_zpow (e := 47) (by norm_num) (by norm_num)) (by positivity)
    (by norm_num at hsquare ⊢; linarith)
  exact ⟨δ, hδ, hlo, hhi, by linarith [(hrounded.roundsTo δ rfl).le_double (by positivity)]⟩

theorem exists_height {x : Float} {s : ℝ} (hs : 0 < s) (hle : s ≤ 2 ^ (23 : ℤ)) (hx : Is x s)
    (hsquare : 2 ^ (-1074 : ℤ) ≤ 4 * (s * s)) :
    ∃ h, Is (1.0 / (2.0 * Weighting.pi * x * x).sqrt) h ∧ 2 ^ (-25 : ℤ) ≤ h ∧
      h ≤ 2 ^ (537 : ℤ) := by
  have hdouble := hx.isDouble hs.le
  obtain ⟨c, hc, hclo, hchi⟩ := tau_value
  have hhigh : s * s ≤ 2 ^ (23 : ℤ) * 2 ^ (23 : ℤ) := by gcongr
  have hrange : (2 : ℝ) ^ 27 < 2 ^ 971 := pow_lt_pow_right₀ one_lt_two (by norm_num)
  norm_num at hle hhigh
  obtain ⟨b, hb, -, hblo, hbhi⟩ := Is.exists_between (mul_rounded (by linarith) hs.le hc hx)
    (hdouble.mul_pow 2 (hrange.trans_le' (by linarith)))
    (hdouble.mul_pow 3 (hrange.trans_le' (by linarith)))
    (by nlinarith) (by nlinarith)
  obtain ⟨p, hp, -, hplo, hphi⟩ := Is.exists_between
    (mul_rounded (by linarith) hs.le hb hx)
    (isDouble_zpow (e := -1074) (by norm_num) (by norm_num))
    (isDouble_zpow (e := 49) (by norm_num) (by norm_num)) (by nlinarith) (by norm_num; nlinarith)
  have hppos : 0 ≤ p := le_trans (by positivity) hplo
  obtain ⟨q, hq, -, hqlo, hqhi⟩ := Is.exists_between (sqrt_rounded hppos hp)
    (isDouble_zpow (e := -537) (by norm_num) (by norm_num))
    (isDouble_zpow (e := 25) (by norm_num) (by norm_num))
    (Real.le_sqrt_of_sq_le (by rw [← zpow_natCast, ← zpow_mul]; exact hplo))
    (Real.sqrt_le_iff.mpr ⟨by positivity, hphi.trans (by norm_num)⟩)
  have hqpos : 0 < q := lt_of_lt_of_le (by positivity) hqlo
  obtain ⟨h, hh, -, hlo, hhi⟩ := Is.exists_between
    (div_rounded (s := .positive) zero_le_one hqpos is_one hq)
    (isDouble_zpow (e := -25) (by norm_num) (by norm_num))
    (isDouble_zpow (e := 537) (by norm_num) (by norm_num))
    (by rw [zpow_neg, ← one_div]; exact one_div_le_one_div_of_le hqpos hqhi)
    (by
      rw [← neg_neg (537 : ℤ), zpow_neg, ← one_div]
      exact one_div_le_one_div_of_le (by positivity) hqlo)
  exact ⟨h, hh, hlo, hhi⟩

section

variable {exp : Float → Float} {g : Gaussian Float} {δ h : ℝ}

theorem Measured.height_pos (hg : g.Measured δ h) : 0 < h :=
  lt_of_lt_of_le (by positivity) hg.le_height

theorem Measured.tap_zero (hg : g.Measured δ h) (hexp : Exponential exp) :
    Is (@tap Float (analytic exp) g 0) h := by
  have hzero := Is.div le_rfl hg.width_pos neg_square_zero hg.width
  rw [zero_div] at hzero
  have hproduct := Is.mul hg.height_pos.le zero_le_one hg.scale
    (hexp.zero_value (hzero isDouble_zero))
  rw [mul_one] at hproduct
  exact hproduct (hg.scale.isDouble hg.height_pos.le)

/-- Next to the middle a Gaussian has fallen already, by more than rounding could make up for. -/
theorem Measured.tap_succ (hg : g.Measured δ h) (hexp : Exponential exp) {d : ℕ} (hd : 0 < d)
    (hlt : d < 2 ^ 31) :
    ∃ v, Is (@tap Float (analytic exp) g d) v ∧ 0 ≤ v ∧ v ≤ h * (1 - 1 / 2 ^ 50) := by
  have hpos := hg.height_pos
  have hone : (1 : ℝ) ≤ d := by exact_mod_cast hd
  have hhigh : (d : ℝ) ≤ 2 ^ 31 := by exact_mod_cast hlt.le
  have hdistance : Is (Scalar.ofNat d : Float) d := Scalar.is_ofNat (by omega)
  have hsmall : (d : ℝ) * d ≤ 2 ^ 31 * 2 ^ 31 := by gcongr
  obtain ⟨n, hn, -, hnlo, hnhi⟩ := Is.exists_between
    (mul_rounded (by positivity) (by positivity) hdistance hdistance) isDouble_one
    (isDouble_zpow (e := 62) (by norm_num) (by norm_num)) (by nlinarith)
    (by norm_num at hsmall ⊢; linarith)
  obtain ⟨w, hw, hrounded⟩ :=
    div_rounded (by linarith) hg.width_pos (neg_value (by linarith) hn) hg.width
  have hquotient : 2 ^ (-47 : ℤ) ≤ n / δ := by
    rw [le_div_iff₀ hg.width_pos]
    calc 2 ^ (-47 : ℤ) * δ ≤ 2 ^ (-47 : ℤ) * 2 ^ (47 : ℤ) := by gcongr; exact hg.width_le
      _ = 1 := by norm_num
      _ ≤ n := hnlo
  obtain ⟨y, hy, hylo, hyhi⟩ := hexp.neg_value
    (hrounded.le_of_ge _ (isDouble_zpow (by norm_num) (by norm_num)) hquotient) hw
  have hone' : y ≤ 1 := hyhi.trans (by norm_num)
  obtain ⟨v, hv, hvrounded, hvlo, -⟩ := Is.exists_between (mul_rounded hpos.le hylo hg.scale hy)
    isDouble_zero (hg.scale.isDouble hpos.le) (by positivity) (mul_le_of_le_one_right hpos.le hone')
  refine ⟨v, hv, hvlo, EReal.coe_le_coe_iff.mp (hvrounded.le_shrunk ?_ ?_ ?_)⟩
  · exact hg.le_height.trans' (zpow_le_zpow_right₀ one_le_two (by norm_num))
  · exact hg.height_le.trans_lt (zpow_lt_zpow_right₀ one_lt_two (by norm_num))
  · exact mul_le_mul_of_nonneg_left hyhi hpos.le

theorem Measured.peaked (hg : g.Measured δ h) (hexp : Exponential exp) {reach : ℕ}
    (hreach : reach < 2 ^ 31) : DiscreteKernel.Peaked (@tap Float (analytic exp) g) reach h where
  reach_lt := hreach
  le_height := hg.le_height.trans' (zpow_le_zpow_right₀ one_le_two (by norm_num))
  height_le := hg.height_le.trans (zpow_le_zpow_right₀ one_le_two (by norm_num))
  middle := hg.tap_zero hexp
  side _ hd hle := hg.tap_succ hexp hd (hle.trans_lt hreach)

end

section

variable {σ : Float}

/-- The Gaussian of a deviation, in doubles. -/
def ofDeviation (σ : Float) : Gaussian Float :=
  ⟨σ, 1.0 / (2.0 * Weighting.pi * σ * σ).sqrt⟩

theorem ofSigma?_eq_ok (exp : Float → Float) (hpos : 0.0 < σ) (hfinite : σ.isFinite = true) :
    @ofSigma? Float (analytic exp) σ = .ok (ofDeviation σ) :=
  if_neg (by simp [Scalar.lt, Scalar.isFinite, hpos, hfinite])

theorem eq_ofDeviation {exp : Float → Float} {g : Gaussian Float}
    (h : @ofSigma? Float (analytic exp) σ = .ok g) :
    0.0 < σ ∧ σ.isFinite = true ∧ g = ofDeviation σ := by
  unfold ofSigma? at h
  split at h
  case isTrue => cases h
  case isFalse hvalid =>
    cases h
    simp only [Scalar.lt, Scalar.isFinite, Bool.or_eq_true, Bool.not_eq_true', not_or,
      Bool.not_eq_false, decide_eq_true_eq] at hvalid
    exact ⟨hvalid.1, hvalid.2, rfl⟩

theorem exists_measured (hpos : 0.0 < σ) (hfinite : σ.isFinite = true)
    (hwidth : 0.0 < 2.0 * σ * σ) (hle : σ ≤ 8388608.0) :
    ∃ δ h, (ofDeviation σ).Measured δ h := by
  obtain ⟨s, hσ, hs⟩ := exists_is_of_pos hpos hfinite
  have hle' : s ≤ 2 ^ (23 : ℤ) := EReal.coe_le_coe_iff.mp ((le_iff_of_value hσ limit_value).mp hle)
  obtain ⟨δ, hδ, hlo, hhi, hsquare⟩ := exists_width hs hle' hσ
  have hδpos : 0 < δ := EReal.coe_lt_coe_iff.mp ((lt_iff_of_value is_zero hδ).mp hwidth)
  obtain ⟨h, hh, hhlo, hhhi⟩ := exists_height hs hle' hσ
    (((hδ.isDouble hlo).le_of_pos hδpos).trans hsquare)
  exact ⟨δ, h, hδ, hδpos, hhi, hh, hhlo, hhhi⟩

end

/-! ### A width that vanishes -/

section

variable {exp : Float → Float} {σ : Float} {s : ℝ}

/-- The square of a deviation vanishes only if the deviation is tiny. -/
theorem tiny_of_width (hs : 0 < s) (hσ : Is σ s) (hwidth : ¬0.0 < 2.0 * σ * σ) :
    s < 2 ^ (-500 : ℤ) ∧ Is (2.0 * σ * σ) 0 := by
  have hsmall : s < 2 ^ (-500 : ℤ) := by
    by_contra hlarge
    rw [not_lt] at hlarge
    obtain ⟨w, hw, hrounded⟩ := mul_rounded zero_le_two hs.le is_two hσ
    have hlow := hrounded.le_of_ge _ (isDouble_zpow (e := -500) (by norm_num) (by norm_num))
      (by linarith)
    refine hwidth ?_
    obtain rfl | ⟨v, rfl, -⟩ := hrounded.top_or_real (by positivity)
    · exact (lt_iff_of_value is_zero (top_mul hs hw hσ)).mpr EReal.zero_lt_top
    · have hlow' : 2 ^ (-500 : ℤ) ≤ v := EReal.coe_le_coe_iff.mp hlow
      have hv : 0 < v := lt_of_lt_of_le (by positivity) hlow'
      obtain ⟨d, hd, hrounded'⟩ := mul_rounded hv.le hs.le hw hσ
      have hproduct : 2 ^ (-1000 : ℤ) ≤ v * s := by
        calc (2 : ℝ) ^ (-1000 : ℤ) = 2 ^ (-500 : ℤ) * 2 ^ (-500 : ℤ) := by
              rw [← zpow_add₀ two_ne_zero]
              norm_num
          _ ≤ v * s := by gcongr
      have hpositive := hrounded'.le_of_ge _ (isDouble_zpow (by norm_num) (by norm_num)) hproduct
      exact (lt_iff_of_value is_zero hd).mpr
        ((EReal.coe_lt_coe_iff.mpr (by positivity)).trans_le hpositive)
  obtain ⟨δ, hδ, hlo, -, -⟩ := exists_width hs
    (hsmall.le.trans (zpow_le_zpow_right₀ one_le_two (by norm_num))) hσ
  obtain rfl | hpos := hlo.eq_or_lt
  · exact ⟨hsmall, hδ⟩
  · exact absurd ((lt_iff_of_value is_zero hδ).mpr (EReal.coe_lt_coe_iff.mpr hpos)) hwidth

theorem reach_eq_one {g : Gaussian Float} (hs : 0 < s) (hsmall : s < 2 ^ (-500 : ℤ))
    (hg : Is g.sigma s) : @reach Float (analytic exp) g = 1 := by
  have hthree : Is 3.0 3 := by
    have h : Is 3.0 ((6755399441055744 : ℕ) * 2 ^ (-51 : ℤ)) := Is.of_unpack rfl
    norm_num at h
    exact h
  have htiny : s < 1 / 4 := hsmall.trans_le
    ((zpow_le_zpow_right₀ one_le_two (by norm_num : (-500 : ℤ) ≤ -2)).trans (by norm_num))
  obtain ⟨v, hv, -, hlo, hhi⟩ := Is.exists_between (mul_rounded hs.le (by norm_num) hg hthree)
    (hg.isDouble hs.le) isDouble_one (by linarith) (by linarith)
  have hceil : ⌈v⌉ = 1 := Int.ceil_eq_iff.mpr ⟨by push_cast; linarith, by push_cast; linarith⟩
  have hword : @Scalar.ceil Float _ (g.sigma * 3.0) = 1 := by
    rw [Scalar.ceil_eq hv, hceil]
    rfl
  exact congrArg Int.toNat hword

/-- Where the square of the deviation vanishes, the middle of the bell is zero divided by zero. -/
theorem value_tap_zero {g : Gaussian Float} (hexp : Exponential exp)
    (hwidth : Is (2.0 * g.sigma * g.sigma) 0) : value? (@tap Float (analytic exp) g 0) = none :=
  mul_nan _ (isNaN_iff.mp (hexp.nan _ (isNaN_iff.mpr (zero_div_zero neg_square_zero hwidth))))

/-- No weight is a number then. -/
theorem weights_eq_nan {g : Gaussian Float} (hexp : Exponential exp)
    (hreach : @reach Float (analytic exp) g = 1) (hwidth : Is (2.0 * g.sigma * g.sigma) 0) :
    @weights Float (analytic exp) g = List.replicate 3 (0.0 / 0.0) := by
  have hmiddle := value_tap_zero hexp hwidth
  set f := @tap Float (analytic exp) g with hf
  have hsum : value? (((0.0 + f 1) + f 0) + f 1) = none := nan_add _ (add_nan _ hmiddle)
  have hfull : @weights Float (analytic exp) g =
      [f 1, f 0, f 1].map (· / (0.0 + f 1 + f 0 + f 1)) := by
    change DiscreteKernel.full f (@reach Float (analytic exp) g) = _
    rw [hreach]
    rfl
  rw [hfull, List.map_cons, List.map_cons, List.map_cons, List.map_nil, eq_nan (div_nan _ hsum),
    eq_nan (div_nan _ hsum)]
  rfl

end

end Gaussian

/-- Weights that are no numbers make words whose whole sum is on the first tap. -/
theorem FixedPoint.quantize_nan :
    quantize (List.replicate 3 (0.0 / 0.0 : Float)) = [one, 0, 0] := by decide +kernel

/-! ### The windows -/

namespace TapTable

variable {exp : Float → Float} {size : ℕ} {radius : Float} {colors : ℕ} {alpha : Bool}
  {t : TapTable}

/-- A blur whose width vanishes takes every sample from the one before it. -/
theorem weightOn_of_vanishing (hexp : Exponential exp) (hpos : 0.0 < radius)
    (hfinite : radius.isFinite = true) (hwidth : ¬0.0 < 2.0 * radius * radius)
    (ht : @blur Float (analytic exp) size radius colors alpha = .ok t) :
    @Gaussian.reach Float (analytic exp) (Gaussian.ofDeviation radius) = 1 ∧
      ∀ i, 1 ≤ i → i + 1 < size → ∀ c < t.channels, ∀ s,
        t.weightOn i s c = if s + 1 = i then FixedPoint.one else 0 := by
  obtain ⟨r, hr, hrpos⟩ := exists_is_of_pos hpos hfinite
  obtain ⟨hsmall, hzero⟩ := Gaussian.tiny_of_width hrpos hr hwidth
  have hreach : @Gaussian.reach Float (analytic exp) (Gaussian.ofDeviation radius) = 1 :=
    Gaussian.reach_eq_one hrpos hsmall hr
  have hweights := Gaussian.weights_eq_nan hexp hreach hzero
  refine ⟨hreach, fun i hlo hhi c hc s => ?_⟩
  have hwindow := @weightOn_blur Float (analytic exp) _ _ _ _ _ _
    (Gaussian.ofSigma?_eq_ok exp hpos hfinite) ht i c (by omega) (by omega) hc s
  rw [hreach, hweights] at hwindow
  refine hwindow.trans ?_
  rw [show @FixedPoint.quantize Float (analytic exp).toScalar (List.replicate 3 (0.0 / 0.0)) = _
    from FixedPoint.quantize_nan]
  by_cases hbefore : s + 1 = i
  · simp [hbefore]
  · rw [if_neg hbefore]
    split
    · have hlater : ∀ n, [FixedPoint.one, 0, 0].getD (n + 1) 0 = 0
        | 0 => rfl
        | 1 => rfl
        | _ + 2 => rfl
      rw [show s + 1 - i = s - i + 1 by omega]
      exact hlater _
    · rfl

/-- As long as the width does not vanish, the windows are symmetric. -/
theorem symmetricAt_of_width (hexp : Exponential exp) (hsize : size < 2 ^ 32) (hpos : 0.0 < radius)
    (hfinite : radius.isFinite = true) (hwidth : 0.0 < 2.0 * radius * radius)
    (hle : radius ≤ 8388608.0)
    (ht : @blur Float (analytic exp) size radius colors alpha = .ok t) {reach : ℕ}
    (hreach : @Gaussian.reach Float (analytic exp) (Gaussian.ofDeviation radius) = reach) {i : ℕ}
    (hlo : reach ≤ i) (hhi : i + reach < size) : t.SymmetricAt reach i := by
  subst hreach
  obtain ⟨δ, h, hmeasured⟩ := Gaussian.exists_measured hpos hfinite hwidth hle
  have hnarrow : @Gaussian.reach Float (analytic exp) (Gaussian.ofDeviation radius) < 2 ^ 31 := by
    omega
  exact (@symmetric_iff Float (analytic exp) _ _ _ _ _ _
    (Gaussian.ofSigma?_eq_ok exp hpos hfinite) ht (by omega)).mpr
      (.inl (hmeasured.peaked hexp hnarrow).peak_full) i hlo hhi

/-- Every blur of a positive and finite radius has a table. If twice the square of the radius is not
rounded to zero, and the radius is no more than `2 ^ 23`, the windows that no end of the axis cuts
are symmetric around their own samples. If it is rounded to zero, every such window takes the
sample before its own and no other. Whatever the radius is, the windows are symmetric exactly if
the peak is in the middle or rounding leaves nothing over. -/
theorem blur_centered (exp : Float → Float) (hexp : Exponential exp) (size : UInt32)
    (radius : Float) (colors : ℕ) (alpha : Bool) (hsize : 0 < size.toNat) (hcolors : 0 < colors)
    (hpos : 0.0 < radius) (hfinite : radius.isFinite = true) :
    ∃ g t, @Gaussian.ofSigma? Float (analytic exp) radius = .ok g ∧
      @blur Float (analytic exp) size.toNat radius colors alpha = .ok t ∧
      let reach := @Gaussian.reach Float (analytic exp) g
      let weights := @Gaussian.weights Float (analytic exp) g
      (0.0 < 2.0 * radius * radius → radius ≤ 8388608.0 →
        ∀ i, reach ≤ i → i + reach < size.toNat → t.SymmetricAt reach i) ∧
      (¬0.0 < 2.0 * radius * radius → reach = 1 ∧
        ∀ i, 1 ≤ i → i + 1 < size.toNat → ∀ c < t.channels, ∀ s,
          t.weightOn i s c = if s + 1 = i then FixedPoint.one else 0) ∧
      (2 * reach < size.toNat →
        ((∀ i, reach ≤ i → i + reach < size.toNat → t.SymmetricAt reach i) ↔
          FixedPoint.peak weights = reach ∨
            FixedPoint.quantize weights = weights.map FixedPoint.quantizeTap)) := by
  have hg := Gaussian.ofSigma?_eq_ok exp hpos hfinite
  obtain ⟨t, ht⟩ := @exists_blur Float (analytic exp) _ _ _ alpha _ hg hsize hcolors
  exact ⟨_, t, hg, ht,
    fun hwidth hle _ => symmetricAt_of_width hexp size.toNat_lt hpos hfinite hwidth hle ht rfl,
    fun hwidth => weightOn_of_vanishing hexp hpos hfinite hwidth ht,
    @symmetric_iff Float (analytic exp) _ _ _ _ _ _ hg ht⟩

/-- A blur of a quarter of a sample. -/
theorem blur_centered_quarter :
    Exponential coarse ∧ 0 < (5 : UInt32).toNat ∧ 0 < 3 ∧ 0.0 < (0.25 : Float) ∧
      (0.25 : Float).isFinite = true ∧
      ∃ t, @blur Float (analytic coarse) 5 0.25 3 true = .ok t ∧ t.SymmetricAt 1 2 := by
  have hpos : 0.0 < (0.25 : Float) := by decide +kernel
  have hfinite : (0.25 : Float).isFinite = true := by decide +kernel
  refine ⟨exponential_coarse, by decide, by decide, hpos, hfinite, ?_⟩
  obtain ⟨g, t, hg, ht, hsymmetric, -, -⟩ :=
    blur_centered coarse exponential_coarse 5 0.25 3 true (by decide) (by decide) hpos hfinite
  have hreach : @Gaussian.reach Float (analytic coarse) g = 1 := by
    obtain rfl : Gaussian.ofDeviation 0.25 = g :=
      Except.ok.inj ((Gaussian.ofSigma?_eq_ok coarse hpos hfinite).symm.trans hg)
    decide +kernel
  rw [hreach] at hsymmetric
  exact ⟨t, ht, hsymmetric (by decide +kernel) (by decide +kernel) 2 (by decide) (by decide)⟩

/-- The square of a radius of `10 ^ -200` is zero in doubles, and the blur of that radius moves what
it should leave as it is. -/
theorem blur_not_centered_tiny :
    Exponential coarse ∧ 0.0 < (1e-200 : Float) ∧ (1e-200 : Float).isFinite = true ∧
      ∃ g t, @Gaussian.ofSigma? Float (analytic coarse) 1e-200 = .ok g ∧
        @Gaussian.reach Float (analytic coarse) g = 1 ∧
        @blur Float (analytic coarse) 5 1e-200 1 false = .ok t ∧ ¬t.SymmetricAt 1 2 := by
  have hpos : 0.0 < (1e-200 : Float) := by decide +kernel
  have hfinite : (1e-200 : Float).isFinite = true := by decide +kernel
  have hg := Gaussian.ofSigma?_eq_ok coarse hpos hfinite
  obtain ⟨t, ht⟩ := @exists_blur Float (analytic coarse) 5 1 _ false _ hg (by decide) (by decide)
  obtain ⟨hreach, hweights⟩ := weightOn_of_vanishing exponential_coarse hpos hfinite
    (by decide +kernel) ht
  refine ⟨exponential_coarse, hpos, hfinite, _, t, hg, hreach, ht, fun hsymmetric => ?_⟩
  have hchannels := @channels_pos_of_blur Float (analytic coarse) _ _ _ _ _ ht
  have hsides := hsymmetric 1 le_rfl 0 hchannels
  rw [hweights 2 (by decide) (by decide) 0 hchannels,
    hweights 2 (by decide) (by decide) 0 hchannels] at hsides
  exact absurd hsides (by decide)

end TapTable

end Resampler
