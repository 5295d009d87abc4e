import Mathlib.Data.List.Palindrome
import Resampler.Proofs.FixedPoint.Quantized
import Resampler.Proofs.Stage.Blurred
import Resampler.Proofs.Taps.Replicated

/-!
The symmetry of a blur.

A Gaussian has the same values to both sides of its middle, and so have the words that these are
rounded to. One word is not what its value is rounded to: the peak takes up what rounding left
over. The windows of a blur are therefore symmetric exactly if their peak is in the middle or if
nothing is left over (`symmetric_iff`).
-/

namespace Resampler

section Palindrome

variable {β : Type} {xs : List β}

theorem getElem?_of_palindrome (h : xs.Palindrome) {j : Nat} (hj : j < xs.length) :
    xs[j]? = xs[xs.length - 1 - j]? := by
  conv_lhs => rw [← h.reverse_eq, List.getElem?_reverse hj]

theorem palindrome_of_getElem? (h : ∀ j < xs.length, xs[j]? = xs[xs.length - 1 - j]?) :
    xs.Palindrome := by
  refine List.Palindrome.of_reverse_eq (List.ext_getElem? fun j => ?_)
  rcases lt_or_ge j xs.length with hj | hj
  · rw [List.getElem?_reverse hj, h j hj]
  · rw [List.getElem?_eq_none (by simpa using hj), List.getElem?_eq_none hj]

end Palindrome

namespace DiscreteKernel

/-- The values at the distances from `-reach` to `reach`. -/
def taps {α : Type} (bell : Nat → α) (reach : Nat) : List α :=
  (List.range (2 * reach + 1)).map fun j : Nat => bell ((j : Int) - reach).natAbs

section

variable {α : Type} {bell : Nat → α} {reach : Nat}

theorem full_eq_map [Scalar α] :
    full bell reach = (taps bell reach).map (· / Scalar.sum (taps bell reach)) := rfl

@[simp] theorem length_taps : (taps bell reach).length = 2 * reach + 1 := by simp [taps]

@[simp] theorem length_full [Scalar α] : (full bell reach).length = 2 * reach + 1 := by
  simp [full_eq_map]

theorem lt_length_full [Scalar α] : reach < (full bell reach).length := by
  rw [length_full]
  omega

theorem getElem_taps {j : Nat} (hj : j < (taps bell reach).length) :
    (taps bell reach)[j] = bell ((j : Int) - reach).natAbs := by simp [taps]

theorem palindrome_taps (bell : Nat → α) (reach : Nat) : (taps bell reach).Palindrome := by
  refine palindrome_of_getElem? fun j hj => ?_
  rw [length_taps] at hj ⊢
  rw [List.getElem?_eq_getElem (by rwa [length_taps]),
    List.getElem?_eq_getElem (by rw [length_taps]; omega), getElem_taps, getElem_taps]
  congr 2
  omega

end

end DiscreteKernel

theorem Gaussian.palindrome_weights {α : Type} [Analytic α] (g : Gaussian α) :
    g.weights.Palindrome := (DiscreteKernel.palindrome_taps g.tap g.reach).map _

namespace FixedPoint

variable {α : Type} [Scalar α] {ws : List α}

theorem fits_quantize {q : Int} (h : q ∈ quantize ws) : Word.Fits32 q := by
  obtain ⟨j, hj, rfl⟩ := List.getElem_of_mem h
  rw [length_quantize] at hj
  have hword := getElem?_quantize hj
  rw [List.getElem?_eq_getElem (by rwa [length_quantize])] at hword
  rw [Option.some.inj hword]
  split
  · exact Word.signed32_fits _
  · unfold quantizeTap Word.saturate32 Word.Fits32
    omega

/-- The words of a symmetric kernel are symmetric as far as the peak is. -/
theorem palindrome_quantize_iff {reach : Nat} (hlen : ws.length = 2 * reach + 1)
    (h : ws.Palindrome) :
    (quantize ws).Palindrome ↔ peak ws = reach ∨ quantize ws = ws.map quantizeTap := by
  have hne : ws ≠ [] := List.ne_nil_of_length_pos (by omega)
  have hpeak := peak_lt hne
  have hother : ∀ j (hj : j < ws.length), peak ws ≠ j →
      (quantize ws)[j]? = (ws.map quantizeTap)[j]? := by
    intro j hj hne
    rw [getElem?_quantize hj, if_neg hne, List.getElem?_map, List.getElem?_eq_getElem hj,
      Option.map_some]
  constructor
  · intro hwords
    by_cases hmiddle : peak ws = reach
    · exact .inl hmiddle
    · -- the word at the peak is that of its mirror image, which nothing was added to
      refine .inr (List.ext_getElem? fun j => ?_)
      rcases lt_or_ge j ws.length with hj | hj
      · by_cases hjpeak : peak ws = j
        · subst hjpeak
          have hmirror := getElem?_of_palindrome hwords (by rwa [length_quantize])
          rw [length_quantize] at hmirror
          have hmirror' := getElem?_of_palindrome (h.map quantizeTap) (by rwa [List.length_map])
          rw [List.length_map] at hmirror'
          rw [hmirror, hmirror']
          exact hother _ (by omega) (by omega)
        · exact hother j hj hjpeak
      · rw [List.getElem?_eq_none (by rwa [length_quantize]),
          List.getElem?_eq_none (by rwa [List.length_map])]
  · rintro (hmiddle | hall)
    · refine palindrome_of_getElem? fun j hj => ?_
      rw [length_quantize] at hj ⊢
      by_cases hjmiddle : j = reach
      · congr 1
        omega
      · have hmirror := getElem?_of_palindrome (h.map quantizeTap) (by rwa [List.length_map])
        rw [List.length_map] at hmirror
        rw [hother j hj (by omega), hother _ (by omega) (by omega)]
        exact hmirror
    · rw [hall]
      exact h.map _

end FixedPoint

namespace TapTable

/-- The weight of channel `c` of sample `s` in the window of output sample `i`, zero outside. -/
def weightOn (t : TapTable) (i s c : Nat) : Int :=
  if (t.window i).start ≤ s ∧ s < (t.window i).start + t.tapCount then
    t.weight i (s - (t.window i).start) c
  else 0

/-- In the window of output sample `i`, samples as far to one side of it as to the other weigh the
same. -/
def SymmetricAt (t : TapTable) (reach i : Nat) : Prop :=
  ∀ d ≤ reach, ∀ c < t.channels, t.weightOn i (i - d) c = t.weightOn i (i + d) c

variable {α : Type} [Analytic α] {size : Nat} {radius : α} {colors : Nat} {alpha : Bool}
  {g : Gaussian α} {t : TapTable}

theorem channels_pos_of_blur (ht : blur size radius colors alpha = .ok t) : 0 < t.channels := by
  obtain ⟨-, -, hchannels, -⟩ := shape_blur ht
  obtain ⟨loose, hloose, -⟩ := map_eq_ok_iff.mp ht
  have hcolors := (pos_of_checkAxis (LooseTable.blur_eq_ok_iff.mp hloose).1).2.2
  omega

/-- Where the ends of the axis leave it alone, a window has the words of the kernel around its own
sample. -/
theorem weightOn_blur (hg : Gaussian.ofSigma? radius = .ok g)
    (ht : blur size radius colors alpha = .ok t) {i c : Nat} (hlo : g.reach ≤ i)
    (hhi : i + g.reach < size) (hc : c < t.channels) (s : Nat) :
    t.weightOn i s c =
      if i ≤ s + g.reach then (FixedPoint.quantize g.weights).getD (s + g.reach - i) 0 else 0 := by
  obtain ⟨htaps, hstarts⟩ := (slides_blur hg ht).narrow (by omega)
  have hstart : (t.window i).start = i - g.reach := by
    have hstart' := hstarts i (by omega)
    omega
  have hlen : (FixedPoint.quantize g.weights).length = 2 * g.reach + 1 := by simp
  rw [weightOn, hstart, htaps]
  by_cases hinside : i ≤ s + g.reach ∧ s ≤ i + g.reach
  · -- the window lies on the axis, so that confining leaves the words where they are
    have hj : s - (i - g.reach) < (FixedPoint.quantize g.weights).length := by omega
    have hword : t.weight i (s - (i - g.reach)) c =
        (FixedPoint.quantize g.weights)[s - (i - g.reach)] := by
      obtain ⟨loose, hloose, rfl⟩ := map_eq_ok_iff.mp ht
      obtain ⟨-, g', hg', rfl⟩ := LooseTable.blur_eq_ok_iff.mp hloose
      obtain rfl : g = g' := Except.ok.inj (hg.symm.trans hg')
      have hnarrow : ¬LooseTable.coversAxis g.reach size = true := fun hcovers => by
        have := of_decide_eq_true hcovers
        omega
      rw [if_neg hnarrow] at hc ⊢
      have hsize : i < (LooseTable.narrow g size (colors + alpha.toNat)).windows.size := by
        simp only [LooseTable.narrow, List.size_toArray, List.length_map, List.length_range]
        omega
      rw [weight, LooseTable.window_confine _ hsize]
      simp only [LooseTable.narrow, LooseTable.confine, List.getElem_toArray, List.getElem_map,
        List.getElem_range, hlen] at hc ⊢
      rw [LooseTaps.weight_confine_of_inside (by omega) _ (by simp; omega) (by simp; omega)
        (by omega) hc, getD_interleave_none hj hc]
      exact (FixedPoint.fits_quantize (List.getElem_mem hj)).signed32_eq
    rw [if_pos (by omega), if_pos hinside.1, hword, List.getD_eq_getElem?_getD,
      show s + g.reach - i = s - (i - g.reach) by omega, List.getElem?_eq_getElem hj,
      Option.getD_some]
  · rw [if_neg (by omega)]
    split
    · rw [List.getD_eq_getElem?_getD, List.getElem?_eq_none (by omega), Option.getD_none]
    · rfl

/-- The windows of a blur that no end of the axis cuts are symmetric exactly if their peak is in the
middle, or if rounding leaves nothing over. -/
theorem symmetric_iff (hg : Gaussian.ofSigma? radius = .ok g)
    (ht : blur size radius colors alpha = .ok t) (hsize : 2 * g.reach < size) :
    (∀ i, g.reach ≤ i → i + g.reach < size → t.SymmetricAt g.reach i) ↔
      FixedPoint.peak g.weights = g.reach ∨
        FixedPoint.quantize g.weights = g.weights.map FixedPoint.quantizeTap := by
  have hlen : (FixedPoint.quantize g.weights).length = 2 * g.reach + 1 := by simp
  have hchannels : 0 < t.channels := channels_pos_of_blur ht
  rw [← FixedPoint.palindrome_quantize_iff (g.length_weights) g.palindrome_weights]
  constructor
  · intro hall
    -- the window around sample `reach` is the first that no end cuts
    have hwords : ∀ d ≤ g.reach, (FixedPoint.quantize g.weights)[g.reach - d]? =
        (FixedPoint.quantize g.weights)[g.reach + d]? := by
      intro d hd
      have hword := hall g.reach le_rfl (by omega) d hd 0 hchannels
      rw [weightOn_blur hg ht le_rfl (by omega) hchannels,
        weightOn_blur hg ht le_rfl (by omega) hchannels, if_pos (by omega), if_pos (by omega),
        Nat.add_sub_cancel, Nat.add_sub_cancel, List.getD_eq_getElem?_getD,
        List.getD_eq_getElem?_getD, List.getElem?_eq_getElem (by omega),
        List.getElem?_eq_getElem (by omega)] at hword
      rw [List.getElem?_eq_getElem (by omega), List.getElem?_eq_getElem (by omega)]
      exact congrArg some hword
    refine palindrome_of_getElem? fun j hj => ?_
    rw [hlen] at hj ⊢
    rcases le_or_gt j g.reach with hj' | hj'
    · have hword := hwords (g.reach - j) (Nat.sub_le _ _)
      rw [show g.reach - (g.reach - j) = j by omega,
        show g.reach + (g.reach - j) = 2 * g.reach + 1 - 1 - j by omega] at hword
      exact hword
    · have hword := hwords (j - g.reach) (by omega)
      rw [show g.reach - (j - g.reach) = 2 * g.reach + 1 - 1 - j by omega,
        show g.reach + (j - g.reach) = j by omega] at hword
      exact hword.symm
  · intro hwords i hlo hhi d hd c hc
    rw [weightOn_blur hg ht hlo hhi hc, weightOn_blur hg ht hlo hhi hc, if_pos (by omega),
      if_pos (by omega)]
    have hmirror := getElem?_of_palindrome hwords (j := i - d + g.reach - i) (by omega)
    rw [List.getD_eq_getElem?_getD, List.getD_eq_getElem?_getD, hmirror]
    congr 2
    omega

end TapTable

end Resampler
