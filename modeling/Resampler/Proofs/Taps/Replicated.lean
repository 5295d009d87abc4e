import Resampler.Proofs.FixedPoint
import Resampler.Proofs.Taps.Folding

/-!
Confining as the repetition of the end samples.

A loose window may hang over one end of the axis or over both, may be wider than the
axis, and may lie outside of it altogether. Read as if the samples at the ends were
repeated forever, each of its taps has a nearest sample on the axis, and what a channel
adds up to is the sum over the taps of weight times nearest sample.

The confined window gives the same sums. It starts at or before every nearest sample
and ends after it (`confinedStart_le_nearestSample`, `nearestSample_lt`), so that the
distance between the two, which is where confining puts a weight, is always a tap of the
window; and the sample under that tap is the nearest sample again. A sum over the taps of
the confined window can then be taken apart by what landed on each and put together
by where it came from. Weights are words, so this holds as far as what lands on one sample
is a word; no sum along the way has to be.
-/

namespace Resampler

namespace LooseTaps

/-- What the taps of channel `c` weigh together whose nearest sample is `s`. -/
def landing (inputSize tapCount channels : Nat) (e : LooseTaps) (c s : Nat) : Int :=
  ∑ j ∈ Finset.range tapCount,
    if nearestSample inputSize (e.start + j) = s then e.weights.getD (j * channels + c) 0 else 0

section

variable {inputSize tapCount channels : Nat} {j : Nat}

/-- The window starts at or before every sample that one of its taps is nearest to. -/
theorem confinedStart_le_nearestSample (start : Int) (hinput : 0 < inputSize) (hj : j < tapCount) :
    confinedStart inputSize (min tapCount inputSize) start ≤
      nearestSample inputSize (start + j) := by
  unfold confinedStart nearestSample
  omega

/-- The window ends after every sample that one of its taps is nearest to. -/
theorem nearestSample_lt (start : Int) (hinput : 0 < inputSize) (hj : j < tapCount) :
    nearestSample inputSize (start + j) <
      confinedStart inputSize (min tapCount inputSize) start + (min tapCount inputSize : Nat) := by
  unfold confinedStart nearestSample
  omega

/-- The tap that receives a weight lies over the sample that the weight was for. -/
theorem start_add_receivingTap (channels : Nat) (hinput : 0 < inputSize) (e : LooseTaps)
    (hj : j < tapCount) :
    (((confine inputSize tapCount channels e).start +
        receivingTap inputSize (min tapCount inputSize) e.start j : Nat) : Int) =
      nearestSample inputSize (e.start + j) := by
  have hle := confinedStart_le_nearestSample e.start hinput hj
  have hpos : 0 ≤ confinedStart inputSize (min tapCount inputSize) e.start := le_max_left _ _
  rw [start_confine]
  unfold receivingTap
  omega

/-- A confined weight is the word of what lands on the sample under its tap. -/
theorem weight_confine_eq_landing (hinput : 0 < inputSize) (e : LooseTaps) {t c : Nat}
    (ht : t < min tapCount inputSize) (hc : c < channels) :
    (confine inputSize tapCount channels e).weights.getD (t * channels + c) 0 =
      Word.signed32 (landing inputSize tapCount channels e c
        ((confine inputSize tapCount channels e).start + t)) := by
  rw [weight_confine e ht hc, landing]
  congr 1
  refine Finset.sum_congr rfl fun j hj => if_congr ?_ rfl rfl
  have hover := start_add_receivingTap channels hinput e (Finset.mem_range.mp hj)
  omega

/-- A sum over the taps of a confined window, weighed with what landed on them, is the sum over
the loose taps, each with its nearest sample. -/
theorem sum_landing_mul (hinput : 0 < inputSize) (e : LooseTaps) (c : Nat) (p : Nat → Int) :
    ∑ t ∈ Finset.range (min tapCount inputSize),
        landing inputSize tapCount channels e c
          ((confine inputSize tapCount channels e).start + t) *
            p ((confine inputSize tapCount channels e).start + t) =
      ∑ j ∈ Finset.range tapCount,
        e.weights.getD (j * channels + c) 0 * p (nearestSample inputSize (e.start + j)).toNat := by
  set first := (confine inputSize tapCount channels e).start with hfirst
  simp only [landing, Finset.sum_mul]
  rw [Finset.sum_comm]
  refine Finset.sum_congr rfl fun j hj => ?_
  have hj' := Finset.mem_range.mp hj
  -- of the taps of the confined window, the one that receives tap `j` has its nearest sample
  have hover := start_add_receivingTap channels hinput e hj'
  have hlt : receivingTap inputSize (min tapCount inputSize) e.start j < min tapCount inputSize :=
    receivingTap_lt hinput hj'
  rw [← hfirst] at hover
  rw [Finset.sum_eq_single_of_mem _ (Finset.mem_range.mpr hlt), if_pos hover.symm, ← hover,
    Int.toNat_natCast]
  intro t _ hne
  rw [if_neg (by omega), zero_mul]

/-- As far as what lands on a sample is a word, confining is the repetition of the end
samples. -/
theorem sum_weights_mul (hinput : 0 < inputSize) (e : LooseTaps) {c : Nat} (hc : c < channels)
    (hfits : ∀ s < inputSize, Word.Fits32 (landing inputSize tapCount channels e c s))
    (p : Nat → Int) :
    ∑ t ∈ Finset.range (min tapCount inputSize),
        (confine inputSize tapCount channels e).weights.getD (t * channels + c) 0 *
          p ((confine inputSize tapCount channels e).start + t) =
      ∑ j ∈ Finset.range tapCount,
        e.weights.getD (j * channels + c) 0 * p (nearestSample inputSize (e.start + j)).toNat := by
  rw [← sum_landing_mul hinput]
  refine Finset.sum_congr rfl fun t ht => ?_
  have ht' := Finset.mem_range.mp ht
  have hinside : (confine inputSize tapCount channels e).start + t < inputSize := by
    rw [start_confine]
    unfold confinedStart
    omega
  rw [weight_confine_eq_landing hinput e ht' hc, (hfits _ hinside).signed32_eq]

/-- Inside the axis every tap is over a sample of its own, on which nothing else lands. -/
theorem landing_of_inside (e : LooseTaps) {t : Nat} (c : Nat) (hstart : 0 ≤ e.start)
    (hend : e.start + tapCount ≤ inputSize) (ht : t < tapCount) :
    landing inputSize tapCount channels e c (e.start.toNat + t) =
      e.weights.getD (t * channels + c) 0 := by
  have hown : ∀ j ∈ Finset.range tapCount,
      (nearestSample inputSize (e.start + j) = ((e.start.toNat + t : Nat) : Int)) = (j = t) := by
    intro j hj
    have hj' := Finset.mem_range.mp hj
    unfold nearestSample
    apply propext
    omega
  rw [landing, Finset.sum_congr rfl fun j hj => by rw [if_congr (hown j hj).to_iff rfl rfl],
    Finset.sum_ite_eq' (Finset.range tapCount) t, if_pos (Finset.mem_range.mpr ht)]

/-- Inside the axis a window stays where it is. -/
theorem start_confine_of_inside (e : LooseTaps) (hstart : 0 ≤ e.start)
    (hend : e.start + tapCount ≤ inputSize) :
    (confine inputSize tapCount channels e).start = e.start.toNat := by
  rw [start_confine]
  unfold confinedStart
  omega

/-- Inside the axis a tap keeps its weight, as far as that is a word. -/
theorem weight_confine_of_inside (hinput : 0 < inputSize) (e : LooseTaps) {t c : Nat}
    (hstart : 0 ≤ e.start) (hend : e.start + tapCount ≤ inputSize) (ht : t < tapCount)
    (hc : c < channels) :
    (confine inputSize tapCount channels e).weights.getD (t * channels + c) 0 =
      Word.signed32 (e.weights.getD (t * channels + c) 0) := by
  have hconfined : t < min tapCount inputSize := by omega
  rw [weight_confine_eq_landing hinput e hconfined hc, start_confine_of_inside e hstart hend,
    landing_of_inside e c hstart hend ht]

/-- A window of words that lies inside the axis is confined already. -/
theorem confine_of_inside (hchannels : 0 < channels) {e : LooseTaps}
    (hsize : e.weights.size = tapCount * channels) (hwords : ∀ w ∈ e.weights, Word.Fits32 w)
    (htaps : 0 < tapCount) (hstart : 0 ≤ e.start) (hend : e.start + tapCount ≤ inputSize) :
    confine inputSize tapCount channels e = { start := e.start.toNat, weights := e.weights } := by
  have hinput : 0 < inputSize := by omega
  have hfirst : (confine inputSize tapCount channels e).start = e.start.toNat :=
    start_confine_of_inside e hstart hend
  have hwidth : min tapCount inputSize = tapCount := by omega
  have hweights : (confine inputSize tapCount channels e).weights = e.weights := by
    refine Array.ext (by rw [size_weights_confine, hwidth, hsize]) fun k hk hk' => ?_
    rw [hsize] at hk'
    have htap : k / channels < tapCount := Nat.div_lt_of_lt_mul (Nat.mul_comm .. ▸ hk')
    have hplace : k / channels * channels + k % channels = k := Nat.div_add_mod' k channels
    have hweight := weight_confine_of_inside hinput e hstart hend htap (Nat.mod_lt k hchannels)
    rw [hplace] at hweight
    have hword := hwords _ (Array.getElem_mem (hsize ▸ hk'))
    rw [Array.getElem_eq_getD 0] at hword
    rw [Array.getElem_eq_getD 0, Array.getElem_eq_getD 0, hweight, hword.signed32_eq]
  rw [← hfirst, ← hweights]

end

end LooseTaps

namespace LooseTable

/-- A table over an axis that is not empty whose windows have at least one tap and one channel, and
a word for each channel of each tap. -/
structure Regular (t : LooseTable) : Prop where
  inputSize_pos : 0 < t.inputSize
  tapCount_pos : 0 < t.tapCount
  channels_pos : 0 < t.channels
  size_weights : ∀ e ∈ t.windows, e.weights.size = t.tapCount * t.channels
  words : ∀ e ∈ t.windows, ∀ w ∈ e.weights, Word.Fits32 w

open LooseTaps

end LooseTable

end Resampler
