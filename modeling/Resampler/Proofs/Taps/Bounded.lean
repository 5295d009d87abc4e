import Resampler.Proofs.Stage.Sampled
import Resampler.Proofs.Taps.Shares

/-!
The words of a blur can be summed.

The words of a window sum to one in 32-bit words, which tells their sum only if it fits into one.
It does if the weights that they are made of are not too large (`FixedPoint.sum_abs_quantize_lt`).
The weights of a Gaussian are not, since no value of it is negative (`Gaussian.upright_tap`), so
the sums of every table that blurs fit into words, whatever its deviation (`TapTable.blursFit`).
-/

namespace Resampler

open Binary64

namespace FixedPoint

/-- Besides one, the words weigh no more than twice what the weights were rounded to. -/
theorem sum_abs_quantize_le {α : Type} [Scalar α] {ws : List α} (hne : ws ≠ []) :
    ((quantize ws).map fun q => |q|).sum ≤
      one + 2 * ((ws.map quantizeTap).map fun q => |q|).sum := by
  have hpeak := peak_lt hne
  have hlen : peak ws < (quantize ws).length := by rwa [length_quantize]
  have hrounded : peak ws < (ws.map quantizeTap).length := by rwa [List.length_map]
  have hothers : (quantize ws).eraseIdx (peak ws) = (ws.map quantizeTap).eraseIdx (peak ws) := by
    rw [quantize, List.eraseIdx_modify_of_eq]
  have hword : (quantize ws)[peak ws] = Word.signed32 (one - restSum ws) := by
    have h := getElem?_quantize hpeak
    rwa [if_pos rfl, List.getElem?_eq_getElem hlen, Option.some_inj] at h
  have hrest : |restSum ws| ≤ (((ws.map quantizeTap).eraseIdx (peak ws)).map fun q => |q|).sum :=
    Multiset.abs_sum_le_sum_abs (s := ((ws.map quantizeTap).eraseIdx (peak ws) : Multiset Int))
  have hpeakword : |Word.signed32 (one - restSum ws)| ≤ one + |restSum ws| :=
    (Word.abs_signed32_le _).trans (abs_sub one (restSum ws))
  have hpos := abs_nonneg (ws.map quantizeTap)[peak ws]
  rw [← abs_add_sum_abs_eraseIdx hlen, ← abs_add_sum_abs_eraseIdx hrounded, hothers, hword]
  linarith

theorem quantizeTap_nan : quantizeTap (0.0 / 0.0 : Float) = 0 := by decide +kernel

/-- Rounded, a weight of ordinary size is at most doubled. -/
theorem abs_quantizeTap_le {w : Float} (hw : Tame w) (hle : amount w ≤ 8192) :
    ((|quantizeTap w| : Int) : ℝ) ≤ 65536 * amount w := by
  obtain hnone | ⟨a, ha, hpos⟩ := hw
  · rw [eq_nan hnone, quantizeTap_nan, ← eq_nan hnone, amount_of_none hnone]
    simp
  · rw [ha.amount_eq] at hle ⊢
    have hrange : (2 : ℝ) ^ 28 < 2 ^ 971 := pow_lt_pow_right₀ one_lt_two (by norm_num)
    have hscale : Is 32768.0 (2 ^ 15) := by
      have h : Is 32768.0 ((4503599627370496 : ℕ) * 2 ^ (-37 : ℤ)) := Is.of_unpack rfl
      norm_num at h ⊢
      exact h
    have hscaled := Is.mul hpos (by positivity) ha hscale
      ((ha.isDouble hpos).mul_pow 15 (hrange.trans_le' (by norm_num; linarith)))
    obtain ⟨hlo, hhi⟩ := Scalar.round_bounds hscaled (by positivity)
    have hword : 0 ≤ quantizeTap w ∧ quantizeTap w ≤ Scalar.round (w * 32768.0) := by
      unfold quantizeTap Word.saturate32
      omega
    rw [abs_of_nonneg hword.1]
    have hcast : (quantizeTap w : ℝ) ≤ (Scalar.round (w * 32768.0) : Int) := by
      exact_mod_cast hword.2
    linarith

/-- The words of weights that are not extraordinarily large have a sum that fits into a word. -/
theorem sum_abs_quantize_lt {ws : List Float} {b : ℝ} (h : Light ws b) (hb : b ≤ 8192) :
    ((quantize ws).map fun q => |q|).sum < 2147483648 := by
  rcases eq_or_ne ws [] with rfl | hne
  · decide
  have hle : ∀ w ∈ ws, amount w ≤ 8192 := fun w hw => by
    refine (List.single_le_sum (fun v hv => ?_) _ (List.mem_map_of_mem hw)).trans
      (h.sum_le.trans hb)
    obtain ⟨x, hx, rfl⟩ := List.mem_map.mp hv
    exact (h.tame x hx).amount_nonneg
  have hrounded : ((((ws.map quantizeTap).map fun q => |q|).sum : Int) : ℝ) ≤ 65536 * 8192 := by
    calc ((((ws.map quantizeTap).map fun q => |q|).sum : Int) : ℝ)
        = (ws.map fun w => ((|quantizeTap w| : Int) : ℝ)).sum := by
          rw [List.map_map, Int.cast_list_sum, List.map_map]
          rfl
      _ ≤ (ws.map fun w => 65536 * amount w).sum :=
          List.sum_le_sum fun w hw => abs_quantizeTap_le (h.tame w hw) (hle w hw)
      _ = 65536 * (ws.map amount).sum := List.sum_map_mul_left ..
      _ ≤ 65536 * 8192 := by linarith [h.sum_le]
  have hcast : ((ws.map quantizeTap).map fun q => |q|).sum ≤ 65536 * 8192 := by
    exact_mod_cast hrounded
  have hsum := sum_abs_quantize_le hne
  simp only [one] at hsum
  omega

end FixedPoint

namespace Gaussian

variable {exp : Float → Float} {σ : Float}

theorem top_or_one_le {x : Float} {a : ℝ} (ha : 1 ≤ a)
    (h : ∃ w, value? x = some w ∧ Rounded a w) :
    value? x = some ⊤ ∨ ∃ v, Is x v ∧ 1 ≤ v := by
  obtain ⟨w, hw, hrounded⟩ := h
  have hlow := hrounded.le_of_ge 1 isDouble_one ha
  obtain rfl | ⟨v, rfl, -⟩ := hrounded.top_or_real (by linarith)
  · exact .inl hw
  · exact .inr ⟨v, hw, EReal.coe_le_coe_iff.mp hlow⟩

/-- Where a deviation is large, its Gaussian is low, but not below zero. -/
theorem notNegative_scale_of_large {s : ℝ} (hσ : Is σ s) (hs : 1 ≤ s) :
    NotNegative (ofDeviation σ).scale := by
  obtain ⟨c, hc, hclo, -⟩ := tau_value
  have hspos : 0 < s := by linarith
  have hproduct : ∀ {x : Float} {a : ℝ}, Is x a → 1 ≤ a →
      value? (x * σ) = some ⊤ ∨ ∃ v, Is (x * σ) v ∧ 1 ≤ v := fun hx ha =>
    top_or_one_le (by nlinarith) (mul_rounded (by linarith) hspos.le hx hσ)
  have hsquare : value? (2.0 * Weighting.pi * σ * σ) = some ⊤ ∨
      ∃ v, Is (2.0 * Weighting.pi * σ * σ) v ∧ 1 ≤ v := by
    obtain htop | ⟨v, hv, hone⟩ := hproduct hc (by linarith)
    · exact .inl (top_mul hspos htop hσ)
    · exact hproduct hv hone
  have hroot : value? (2.0 * Weighting.pi * σ * σ).sqrt = some ⊤ ∨
      ∃ v, Is (2.0 * Weighting.pi * σ * σ).sqrt v ∧ 1 ≤ v := by
    obtain htop | ⟨v, hv, hone⟩ := hsquare
    · exact .inl (sqrt_top htop)
    · exact top_or_one_le (Real.one_le_sqrt.mpr hone) (sqrt_rounded (by linarith) hv)
  obtain htop | ⟨v, hv, hone⟩ := hroot
  · obtain hnone | hzero := div_top (is_one.notNegative zero_le_one) htop
    · exact notNegative_of_none hnone
    · exact hzero.notNegative le_rfl
  · exact notNegative_of_rounded (by positivity)
      (div_rounded (s := .positive) zero_le_one (by linarith) is_one hv)

/-- No value of a Gaussian is negative. If the square of its deviation vanishes, the middle one is
no number. -/
theorem upright_tap (hexp : Exponential exp) (hpos : 0.0 < σ) (hfinite : σ.isFinite = true) :
    DiscreteKernel.Upright (@tap Float (analytic exp) (ofDeviation σ)) := by
  obtain ⟨s, hσ, hs⟩ := exists_is_of_pos hpos hfinite
  by_cases hwidth : 0.0 < 2.0 * σ * σ
  · right
    have hscale : NotNegative (ofDeviation σ).scale := by
      rcases le_or_gt 1 s with hlarge | hsmall
      · exact notNegative_scale_of_large hσ hlarge
      · have hle : s ≤ 2 ^ (23 : ℤ) := hsmall.le.trans (by norm_num)
        obtain ⟨δ, h, hmeasured⟩ := exists_measured hpos hfinite hwidth
          ((le_iff_of_value hσ limit_value).mpr (EReal.coe_le_coe_iff.mpr hle))
        exact hmeasured.scale.notNegative hmeasured.height_pos.le
    exact fun d => hscale.mul (hexp.notNegative _)
  · left
    exact value_tap_zero hexp (tiny_of_width hs hσ hwidth).2

end Gaussian

namespace LooseTable

/-- A window whose channels share their weights has them once for each channel. -/
theorem sum_abs_interleave {qs : List Int} {channels c : ℕ} (hc : c < channels) :
    ∑ j ∈ Finset.range qs.length, |(interleave channels qs none).getD (j * channels + c) 0| =
      (qs.map fun q => |q|).sum := by
  rw [← List.length_map (f := fun q : Int => |q|)]
  refine sum_range_getElem fun j hj => ?_
  rw [List.length_map] at hj
  rw [getD_interleave_none hj hc, List.getElem_map]

/-- Confining does not make the words of a window too large to be summed. -/
theorem sumsFit_confine {t : LooseTable}
    (h : ∀ e ∈ t.windows, ∃ qs : List Int, qs.length = t.tapCount ∧
      e.weights = interleave t.channels qs none ∧ (qs.map fun q => |q|).sum < 2147483648) :
    t.confine.SumsFit := by
  intro i hi c hc
  rw [t.outputSize_confine] at hi
  have hc : c < t.channels := hc
  obtain ⟨qs, hlen, hweights, hsum⟩ := h _ (Array.getElem_mem hi)
  have habs : |∑ j ∈ Finset.range t.confine.tapCount, t.confine.weight i j c| < 2147483648 := by
    calc |∑ j ∈ Finset.range t.confine.tapCount, t.confine.weight i j c|
        ≤ ∑ j ∈ Finset.range t.confine.tapCount, |t.confine.weight i j c| :=
          Finset.abs_sum_le_sum_abs ..
      _ ≤ ∑ j ∈ Finset.range t.tapCount,
            |t.windows[i].weights.getD (j * t.channels + c) 0| := by
          simp only [TapTable.weight, window_confine t hi]
          exact LooseTaps.sum_abs_weights_confine_le _ hc
      _ = (qs.map fun q => |q|).sum := by rw [hweights, ← hlen, sum_abs_interleave hc]
      _ < 2147483648 := hsum
  rw [abs_lt] at habs
  exact ⟨habs.1.le, habs.2⟩

end LooseTable

namespace TapTable

/-- The weights of every blur have sums that fit into words. -/
def BlursFit (α : Type) [Analytic α] : Prop :=
  ∀ {size : ℕ} {radius : α} {colors : ℕ} {alpha : Bool} {t : TapTable}, size < 2 ^ 32 →
    blur size radius colors alpha = .ok t → t.SumsFit

theorem sum_abs_lt_of_mem_wideWeights {exp : Float → Float} {g : Gaussian Float}
    (hbell : DiscreteKernel.Upright (@Gaussian.tap Float (analytic exp) g)) {size : ℕ}
    (hsize : size < 2 ^ 32) {ws : List Int}
    (h : ws ∈ @LooseTable.wideWeights Float (analytic exp) g size) :
    (ws.map fun q => |q|).sum < 2147483648 := by
  rcases eq_or_ne size 1 with rfl | hne
  · obtain rfl := List.mem_singleton.mp h
    decide
  · rw [@DiscreteKernel.wideWeights_eq Float (analytic exp) g size hne] at h
    obtain ⟨i, hi, rfl⟩ := List.mem_map.mp h
    exact FixedPoint.sum_abs_quantize_lt
      (hbell.light_folded hsize (List.mem_range.mp hi)) (by norm_num)

/-- In doubles they do. -/
theorem blursFit {exp : Float → Float} (hexp : Exponential exp) :
    @BlursFit Float (analytic exp) := by
  intro size radius colors alpha t hsize h
  obtain ⟨loose, hloose, rfl⟩ := map_eq_ok_iff.mp h
  obtain ⟨haxis, g, hg, rfl⟩ := (@LooseTable.blur_eq_ok_iff Float (analytic exp) ..).mp hloose
  obtain ⟨hpos, hfinite, rfl⟩ := Gaussian.eq_ofDeviation hg
  have hbell := Gaussian.upright_tap hexp hpos hfinite
  apply LooseTable.sumsFit_confine
  split
  case isTrue =>
    intro e he
    obtain ⟨ws, hws, rfl⟩ := List.mem_map.mp (List.mem_toArray.mp he)
    obtain ⟨hlen, -⟩ := @LooseTable.sum_of_mem_wideWeights Float (analytic exp) _ _
      (pos_of_checkAxis haxis).1 _ hws
    exact ⟨ws, hlen, rfl, sum_abs_lt_of_mem_wideWeights hbell hsize hws⟩
  case isFalse hnarrow =>
    intro e he
    obtain ⟨i, -, rfl⟩ := List.mem_map.mp (List.mem_toArray.mp he)
    refine ⟨_, rfl, rfl, FixedPoint.sum_abs_quantize_lt (hbell.light_full ?_) (by norm_num)⟩
    simp only [LooseTable.coversAxis, decide_eq_true_eq] at hnarrow
    omega

end TapTable

end Resampler
