import Mathlib.Algebra.BigOperators.Fin
import Resampler.Proofs.Setup.Stages
import Resampler.Proofs.Taps.Folding
import Resampler.Scalar.Binary64
import Resampler.Scalar.Rational

/-!
Tables whose weights balance.

The weights of every window sum to one, channel by channel. Rounding does not spoil this,
since the tap of largest magnitude takes up what it left over; nor does the interleaving of
channels, nor the folding of taps that lie past an end. Nothing here depends on how
the numbers behave that the weights were computed from: a sum that went wrong, a NaN
or a comparison that makes no sense changes which weights a window has, but not what they sum to.
Nor does it depend on how many weights there are, as long as memory holds them: where it does not,
no table is built.
-/

namespace Resampler

namespace FixedPoint

theorem sum_modify {xs : List Int} {i : Nat} (h : i < xs.length) (f : Int → Int) :
    (xs.modify i f).sum = xs.sum + (f xs[i] - xs[i]) := by
  induction xs generalizing i with
  | nil => simp at h
  | cons x xs ih =>
    cases i with
    | zero =>
      simp only [List.modify_zero_cons, List.sum_cons, List.getElem_cons_zero]
      ring
    | succ i =>
      simp only [List.modify_succ_cons, List.sum_cons, List.getElem_cons_succ]
      rw [ih (by simpa using h)]
      ring

variable {α : Type} [Scalar α]

theorem peak_go_lt {best i n : Nat} {weight : α} {ws : List α} (hbest : best < n)
    (hn : i + ws.length ≤ n) : peak.go best weight i ws < n := by
  induction ws generalizing best weight i with
  | nil => exact hbest
  | cons w ws ih =>
    rw [List.length_cons] at hn
    rw [peak.go]
    split
    · exact ih (by omega) (by omega)
    · exact ih hbest (by omega)

theorem peak_lt {ws : List α} (h : ws ≠ []) : peak ws < ws.length := by
  cases ws with
  | nil => exact absurd rfl h
  | cons w ws =>
    apply peak_go_lt
    · simp
    · simp [Nat.add_comm]

/-- Quantized weights sum to one, whatever the weights were. -/
theorem signed32_sum_quantize {ws : List α} (h : ws ≠ []) :
    Word.signed32 (quantize ws).sum = one := by
  have hpeak : peak ws < (ws.map quantizeTap).length := by
    rw [List.length_map]
    exact peak_lt h
  rw [quantize, sum_modify hpeak, ← List.sum_eq_foldl]
  generalize (ws.map quantizeTap).sum = total
  generalize (ws.map quantizeTap)[peak ws] = q
  calc Word.signed32 (total + (Word.signed32 (q + (one - total)) - q))
      = Word.signed32 (total - q + Word.signed32 (q + (one - total))) := by congr 1; ring
    _ = Word.signed32 (total - q + (q + (one - total))) := Word.signed32_add_signed32 _ _
    _ = Word.signed32 one := by congr 1; ring
    _ = one := by decide

end FixedPoint

/-- Where blocks of one length are put side by side, a place belongs to one of them. -/
theorem getElem?_flatMap_of_length {β γ : Type} {f : β → List γ} {n c : Nat}
    (h : ∀ x, (f x).length = n) (hc : c < n) (xs : List β) (j : Nat) :
    (xs.flatMap f)[j * n + c]? = xs[j]?.bind fun x => (f x)[c]? := by
  rw [← List.getElem?_drop, drop_flatMap_of_length h]
  cases hx : xs.drop j with
  | nil =>
    rw [List.drop_eq_nil_iff] at hx
    simp [List.getElem?_eq_none hx]
  | cons x rest =>
    have hj : xs[j]? = some x := by
      rw [← Nat.add_zero j, ← List.getElem?_drop, hx]
      rfl
    rw [hj, Option.bind_some, List.flatMap_cons, List.getElem?_append_left (by rwa [h])]

section Interleave

variable {colors : Nat} {qs as : List Int} {j c : Nat}

/-- Without weights of its own, alpha is one of the colors. -/
theorem getD_interleave_none (hj : j < qs.length) (hc : c < colors) :
    (interleave colors qs none).getD (j * colors + c) 0 = qs[j] := by
  rw [interleave, Array.getD_eq_getD_getElem?, List.getElem?_toArray,
    getElem?_flatMap_of_length (fun q => List.length_replicate) hc, List.getElem?_eq_getElem hj]
  simp [hc]

/-- The colors of a tap have its color weight, and alpha the alpha weight. -/
theorem getD_interleave_some (hj : j < qs.length) (hlen : as.length = qs.length)
    (hc : c < colors + 1) :
    (interleave colors qs (some as)).getD (j * (colors + 1) + c) 0 =
      if c < colors then qs[j] else as[j] := by
  have hzip : (qs.zip as)[j]? = some (qs[j], as[j]) := by
    rw [List.getElem?_eq_getElem (by simpa [hlen] using hj), List.getElem_zip]
  rw [interleave, Array.getD_eq_getD_getElem?, List.getElem?_toArray,
    getElem?_flatMap_of_length (fun q => by simp) hc, hzip, Option.bind_some]
  by_cases hcolor : c < colors
  · simp [hcolor, List.getElem?_append_left]
  · obtain rfl : c = colors := by omega
    simp

end Interleave

theorem sum_range_getElem {β : Type} [AddCommMonoid β] {qs : List β} {f : Nat → β}
    (h : ∀ j (hj : j < qs.length), f j = qs[j]) : ∑ j ∈ Finset.range qs.length, f j = qs.sum := by
  rw [← Fin.sum_univ_getElem, Finset.sum_range]
  exact Finset.sum_congr rfl fun j _ => h j j.isLt

/-- The window of a loose table, before it is confined. -/
structure LooseTaps.Balanced (e : LooseTaps) (tapCount channels alike : Nat) : Prop where
  sum_eq : ∀ c < channels, Word.signed32
    (∑ j ∈ Finset.range tapCount, e.weights.getD (j * channels + c) 0) = FixedPoint.one
  alike : ∀ j < tapCount, ∀ c < alike, ∀ c' < alike,
    e.weights.getD (j * channels + c) 0 = e.weights.getD (j * channels + c') 0

namespace LooseTaps

theorem balanced_shared {qs : List Int} (hsum : Word.signed32 qs.sum = FixedPoint.one)
    (start : Int) (channels : Nat) :
    (LooseTaps.mk start (interleave channels qs none)).Balanced qs.length channels channels where
  sum_eq c hc := by
    rw [sum_range_getElem fun j hj => getD_interleave_none hj hc]
    exact hsum
  alike j hj c hc c' hc' := by
    rw [getD_interleave_none hj hc, getD_interleave_none hj hc']

theorem balanced_apart {qs as : List Int} (hlen : as.length = qs.length)
    (hqs : Word.signed32 qs.sum = FixedPoint.one) (has : Word.signed32 as.sum = FixedPoint.one)
    (start : Int) (colors : Nat) :
    (LooseTaps.mk start (interleave colors qs (some as))).Balanced qs.length (colors + 1)
      colors where
  sum_eq c hc := by
    by_cases hcolor : c < colors
    · rw [sum_range_getElem fun j hj => by rw [getD_interleave_some hj hlen hc, if_pos hcolor]]
      exact hqs
    · rw [← hlen, sum_range_getElem fun j hj => by
        rw [getD_interleave_some (by omega) hlen hc, if_neg hcolor]]
      exact has
  alike j hj c hc c' hc' := by
    rw [getD_interleave_some hj hlen (by omega), getD_interleave_some hj hlen (by omega),
      if_pos hc, if_pos hc']

end LooseTaps

/-- A table of the given sizes whose windows lie on the axis, sum to one in every channel,
and weigh the first `alike` channels of each tap alike. Sums are taken in 32-bit words. -/
structure TapTable.WellFormed (t : TapTable) (input output channels alike : Nat) : Prop where
  inputSize_eq : t.inputSize = input
  outputSize_eq : t.outputSize = output
  channels_eq : t.channels = channels
  tapCount_pos : 0 < t.tapCount
  confined : t.Confined
  sum_eq : ∀ i < output, ∀ c < channels,
    Word.signed32 (∑ j ∈ Finset.range t.tapCount, t.weight i j c) = FixedPoint.one
  alike : ∀ i < output, ∀ j < t.tapCount, ∀ c < alike, ∀ c' < alike,
    t.weight i j c = t.weight i j c'

theorem FixedPoint.normalize_ne_nil {α : Type} [Scalar α] {ws : List α} (h : ws ≠ []) :
    normalize ws ≠ [] := by
  rwa [← List.length_pos_iff, length_normalize, List.length_pos_iff]

namespace ScaleAxis

variable {α : Type} [Scalar α]

theorem tapCount_pos (a : ScaleAxis α) : 0 < a.tapCount :=
  Nat.lt_of_lt_of_le Nat.one_pos (Nat.le_max_right _ _)

/-- A window has a tap at least. -/
theorem window_ne_nil (a : ScaleAxis α) (f : Interpolation α) (i : Nat) : a.window f i ≠ [] := by
  rw [← List.length_pos_iff, window, List.length_map, List.length_range]
  exact a.tapCount_pos

end ScaleAxis

namespace LooseTable

theorem wellFormed_confine {t : LooseTable} {alike : Nat} (hinput : 0 < t.inputSize)
    (htaps : 0 < t.tapCount) (halike : alike ≤ t.channels)
    (h : ∀ e ∈ t.windows, e.Balanced t.tapCount t.channels alike) :
    t.confine.WellFormed t.inputSize t.windows.size t.channels alike where
  inputSize_eq := rfl
  outputSize_eq := t.outputSize_confine
  channels_eq := rfl
  tapCount_pos := Nat.lt_min.mpr ⟨htaps, hinput⟩
  confined := t.confined_confine
  sum_eq i hi c hc := by
    rw [← (h _ (Array.getElem_mem hi)).sum_eq c hc,
      ← LooseTaps.sum_weights_confine hinput t.windows[i] hc]
    simp only [TapTable.weight, window_confine t hi]
    rfl
  alike i hi j hj c hc c' hc' := by
    have he := h _ (Array.getElem_mem hi)
    simp only [TapTable.weight, window_confine t hi]
    have hj' : j < min t.tapCount t.inputSize := hj
    have hweight (d : Nat) (hd : d < alike) :=
      LooseTaps.weight_confine t.windows[i] hj' (Nat.lt_of_lt_of_le hd halike)
    have hchannels : t.confine.channels = t.channels := rfl
    rw [hchannels, hweight c hc, hweight c' hc']
    congr 1
    refine Finset.sum_congr rfl fun k hk => ?_
    rw [he.alike k (Finset.mem_range.mp hk) c hc c' hc']

section Scale

variable {α : Type} [Scalar α]

theorem length_weights_scale (axis : ScaleAxis α) (f : Interpolation α) (i : Nat) :
    (axis.weights f i).length = axis.tapCount := by
  simp only [ScaleAxis.weights, ScaleAxis.window, FixedPoint.length_quantize,
    FixedPoint.length_normalize, List.length_map, List.length_range]

theorem signed32_sum_weights_scale (axis : ScaleAxis α) (f : Interpolation α) (i : Nat) :
    Word.signed32 (axis.weights f i).sum = FixedPoint.one :=
  FixedPoint.signed32_sum_quantize (FixedPoint.normalize_ne_nil (axis.window_ne_nil f i))

/-- The windows of a change of size balance. Alpha has weights of its own if it is there. -/
theorem balanced_scale {input output colors : Nat} {alpha : Bool} {f : Interpolation α}
    {t : LooseTable} (h : scale input output colors alpha f = .ok t) :
    0 < input ∧ 0 < t.tapCount ∧ t.inputSize = input ∧ t.windows.size = output ∧
      t.channels = colors + alpha.toNat ∧
        ∀ e ∈ t.windows, e.Balanced t.tapCount t.channels colors := by
  obtain ⟨_, haxis, h⟩ := bind_eq_ok_iff.mp h
  obtain ⟨hinput, -, -⟩ := pos_of_checkAxis haxis
  cases h
  refine ⟨hinput, ScaleAxis.tapCount_pos _, rfl, by simp, rfl, ?_⟩
  intro e he
  obtain ⟨i, -, rfl⟩ := List.mem_map.mp (List.mem_toArray.mp he)
  have hcolor := length_weights_scale (ScaleAxis.of input output f) f i
  have hsum := signed32_sum_weights_scale (ScaleAxis.of input output f) f i
  cases alpha with
  | false =>
    have hshared := LooseTaps.balanced_shared hsum ((ScaleAxis.of input output f).start i) colors
    rwa [hcolor] at hshared
  | true =>
    have hapart := LooseTaps.balanced_apart
      ((length_weights_scale (ScaleAxis.of input output f) f.forAlpha i).trans hcolor.symm) hsum
      (signed32_sum_weights_scale (ScaleAxis.of input output f) f.forAlpha i)
      ((ScaleAxis.of input output f).start i) colors
    rwa [hcolor] at hapart

end Scale

section Blur

variable {α : Type} [Analytic α]

theorem balanced_narrow (g : Gaussian α) (size channels : Nat) :
    ∀ e ∈ (narrow g size channels).windows,
      e.Balanced (narrow g size channels).tapCount channels channels := by
  intro e he
  obtain ⟨i, -, rfl⟩ := List.mem_map.mp (List.mem_toArray.mp he)
  apply LooseTaps.balanced_shared
  apply FixedPoint.signed32_sum_quantize
  rw [← List.length_pos_iff, Gaussian.length_weights]
  omega

/-- The weights of a window that is the whole axis, an axis of one sample included. -/
theorem sum_of_mem_wideWeights {g : Gaussian α} {size : Nat} (hsize : 0 < size) {ws : List Int}
    (h : ws ∈ wideWeights g size) :
    ws.length = size ∧ Word.signed32 ws.sum = FixedPoint.one := by
  unfold wideWeights at h
  split at h
  case isTrue hone =>
    obtain rfl := List.mem_singleton.mp h
    exact ⟨hone.symm, by decide⟩
  case isFalse =>
    obtain ⟨i, -, rfl⟩ := List.mem_map.mp h
    have hlen : (DiscreteKernel.onAxis (g.halfWeights size)
        (DiscreteKernel.suffixSums (g.halfWeights size).toList).toArray size i).length = size := by
      simp [DiscreteKernel.onAxis]
    refine ⟨by rw [FixedPoint.length_quantize, hlen], FixedPoint.signed32_sum_quantize ?_⟩
    rw [← List.length_pos_iff, hlen]
    exact hsize

theorem balanced_wide (g : Gaussian α) {size : Nat} (hsize : 0 < size) (channels : Nat) :
    ∀ e ∈ (wide g size channels).windows,
      e.Balanced (wide g size channels).tapCount channels channels := by
  intro e he
  obtain ⟨ws, hws, rfl⟩ := List.mem_map.mp (List.mem_toArray.mp he)
  obtain ⟨hlen, hsum⟩ := sum_of_mem_wideWeights hsize hws
  have hshared := LooseTaps.balanced_shared hsum 0 channels
  rwa [hlen] at hshared

end Blur

end LooseTable

namespace TapTable

theorem wellFormed_scale {α : Type} [Scalar α] {input output colors : Nat} {alpha : Bool}
    {f : Interpolation α} {t : TapTable} (h : scale input output colors alpha f = .ok t) :
    t.WellFormed input output (colors + alpha.toNat) colors := by
  obtain ⟨loose, hloose, rfl⟩ := map_eq_ok_iff.mp h
  obtain ⟨hinput, htaps, rfl, rfl, hchannels, hbalanced⟩ := LooseTable.balanced_scale hloose
  rw [← hchannels]
  exact LooseTable.wellFormed_confine hinput htaps (by omega) hbalanced

theorem wellFormed_blur {α : Type} [Analytic α] {size colors : Nat} {radius : α} {alpha : Bool}
    {t : TapTable} (h : blur size radius colors alpha = .ok t) :
    t.WellFormed size size (colors + alpha.toNat) (colors + alpha.toNat) := by
  obtain ⟨loose, hloose, rfl⟩ := map_eq_ok_iff.mp h
  obtain ⟨haxis, g, -, rfl⟩ := LooseTable.blur_eq_ok_iff.mp hloose
  obtain ⟨hsize, -, -⟩ := pos_of_checkAxis haxis
  split
  case isTrue =>
    have h := LooseTable.wellFormed_confine (t := LooseTable.wide g size (colors + alpha.toNat))
      hsize hsize le_rfl (LooseTable.balanced_wide g hsize _)
    rwa [LooseTable.size_windows_wide] at h
  case isFalse =>
    have h := LooseTable.wellFormed_confine (t := LooseTable.narrow g size (colors + alpha.toNat))
      hsize (by simp [LooseTable.narrow]) le_rfl (LooseTable.balanced_narrow g size _)
    have hwindows : (LooseTable.narrow g size (colors + alpha.toNat)).windows.size = size := by
      simp [LooseTable.narrow]
    rwa [hwindows] at h

/-- Every table that is built for a change of size or for a blur is well formed, over any numbers,
of any size and with any channels. In a change of size the colors share their weights, in a blur
all channels do. -/
theorem scale_and_blur_wellFormed :
    (∀ {α : Type} [Scalar α] {input output colors : Nat} {alpha : Bool} {f : Interpolation α}
      {t : TapTable}, (buildScale input output colors alpha f).outcome = .ok t →
        t.WellFormed input output (colors + alpha.toNat) colors) ∧
    ∀ {α : Type} [Analytic α] {size colors : Nat} {radius : α} {alpha : Bool} {t : TapTable},
      (buildBlur size radius colors alpha).outcome = .ok t →
        t.WellFormed size size (colors + alpha.toNat) (colors + alpha.toNat) :=
  ⟨fun h => wellFormed_scale (outcome_buildScale_eq_ok_iff.mp h).2,
    fun h => wellFormed_blur (outcome_buildBlur_eq_ok_iff.mp h).2⟩

/-- Two samples made into three, with alpha, and two samples blurred by a wider kernel. -/
theorem scale_and_blur_wellFormed_of_two :
    ∃ t b, (buildScale 2 3 3 true (.plain (.linear : Weighting Rat))).outcome = .ok t ∧
      t.WellFormed 2 3 4 3 ∧ (buildBlur 2 (1.0 : Float) 1 false).outcome = .ok b ∧
      b.WellFormed 2 2 1 1 := by
  obtain ⟨hscale, hblur⟩ := scale_and_blur_wellFormed
  obtain ⟨t, ht⟩ := exists_scale (by decide : 0 < 2) (by decide : 0 < 3) (by decide : 0 < 3) true
    (.plain (.linear : Weighting Rat))
  have hsigma : Gaussian.ofSigma? (1.0 : Float) =
      .ok ⟨1.0, 1.0 / Analytic.sqrt (2.0 * Weighting.pi * 1.0 * 1.0)⟩ := by
    unfold Gaussian.ofSigma?
    rw [if_neg (by decide +kernel)]
  obtain ⟨b, hb⟩ := exists_blur false hsigma (by decide : 0 < 2) (by decide : 0 < 1)
  have hreach : (⟨1.0, 1.0 / Analytic.sqrt (2.0 * Weighting.pi * 1.0 * 1.0)⟩ :
      Gaussian Float).reach = 3 := by decide +kernel
  have hbytes : blurBytes 2 (1.0 : Float) 1 false = 16 := by
    rw [blurBytes, hsigma]
    simp only [hreach]
    decide
  have ht' : (buildScale 2 3 3 true (.plain (.linear : Weighting Rat))).outcome = .ok t :=
    outcome_buildScale_eq_ok_iff.mpr ⟨by decide +kernel, ht⟩
  have hb' : (buildBlur 2 (1.0 : Float) 1 false).outcome = .ok b :=
    outcome_buildBlur_eq_ok_iff.mpr ⟨by rw [hbytes]; decide, hb⟩
  exact ⟨t, b, ht', hscale ht', hb', hblur hb'⟩

end TapTable

end Resampler
