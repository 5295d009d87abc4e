import Mathlib.Data.List.GetD
import Resampler.Proofs.Convolution.Unbounded
import Resampler.Proofs.Taps.Alpha
import Resampler.Proofs.Taps.Covering

/-!
How far words are from weights.

A weight becomes the nearest word, which is off by half a unit at most. The peak takes up what
rounding the other taps has left, and so is off by as much as all of them together. That grows with
the number of taps, but not without bound: rounding a weight moves it by no more than the weight
itself, and makes it no more than twice as large. All words together, their signs aside, are at most
three times as large as the weights, whatever number of taps there is. Folding the ends of a window
adds up words, which makes them smaller if anything. Whether the sums of the row kernels fit can
therefore be told from the sampled kernel alone.

All of this is about weights whose words fit into 32 bits. A word that does not fit is moved to the
end of the range, however far away its weight is.
-/

namespace Resampler

namespace FixedPoint

/-- All weights of a window together, their signs aside. -/
def mass (ws : List ℚ) : ℚ := (ws.map fun w => |w|).sum

/-- How far the word of tap `j` is from its weight. -/
def offBy (ws : List ℚ) (j : Nat) : ℚ := |((quantize ws).getD j 0 : ℚ) - 32768 * ws.getD j 0|

/-- The words that the weights of a window are rounded to fit into 32 bits, and so does the word of
the peak. -/
structure WordsFit (ws : List ℚ) : Prop where
  rounded : ∀ w ∈ ws, Word.Fits32 (Rational.round (32768 * w))
  peak_fits : Word.Fits32 (one - restSum ws)

/-- The words of a window are true to its weights. They sum to one; those of all taps but one are
the nearest, and that one is as large as any and off by what the others left over; and together they
are no more than three times as large as the weights. -/
structure Faithful (ws : List ℚ) : Prop where
  sum_eq : (quantize ws).sum = one
  near : ∃ p < ws.length, (∀ w ∈ ws, |w| ≤ |ws.getD p 0|) ∧
    offBy ws p ≤ ((ws.length : ℚ) - 1) / 2 ∧ ∀ j < ws.length, j ≠ p → offBy ws j ≤ 1 / 2
  sum_abs_le : ((((quantize ws).map fun q => |q|).sum : Int) : ℚ) ≤ 3 * 32768 * mass ws

section Mass

variable {ws : List ℚ}

theorem mass_nonneg (ws : List ℚ) : 0 ≤ mass ws := by
  refine List.sum_nonneg fun x hx => ?_
  obtain ⟨w, -, rfl⟩ := List.mem_map.mp hx
  exact abs_nonneg w

theorem abs_scaled (w : ℚ) : |32768 * w| = 32768 * |w| := by
  rw [abs_mul, abs_of_nonneg (by norm_num)]

theorem abs_add_mass_eraseIdx {i : Nat} (h : i < ws.length) :
    |ws[i]| + mass (ws.eraseIdx i) = mass ws :=
  FixedPoint.abs_add_sum_abs_eraseIdx h

theorem abs_le_mass {w : ℚ} (h : w ∈ ws) : |w| ≤ mass ws := by
  obtain ⟨i, hi, rfl⟩ := List.getElem_of_mem h
  rw [← abs_add_mass_eraseIdx hi]
  exact le_add_of_nonneg_right (mass_nonneg _)

end Mass

section Rounded

variable {ws : List ℚ} (hfits : ∀ w ∈ ws, Word.Fits32 (Rational.round (32768 * w)))
include hfits

/-- Rounded one by one, the weights are at most doubled. -/
theorem sum_abs_quantizeTap_le :
    ((((ws.map quantizeTap).map fun q => |q|).sum : Int) : ℚ) ≤ 2 * 32768 * mass ws := by
  induction ws with
  | nil => simp [mass]
  | cons w ws ih =>
    have hw := Rational.abs_round_le (32768 * w)
    have hws := ih fun v hv => hfits v (List.mem_cons_of_mem w hv)
    rw [abs_scaled] at hw
    simp only [mass] at hws
    rw [List.map_cons, List.map_cons, List.sum_cons,
      quantizeTap_of_fits (hfits w List.mem_cons_self), mass, List.map_cons, List.sum_cons,
      Int.cast_add, Int.cast_abs]
    linarith

variable (hsum : ws.sum = 1) (hpeak : peak ws < ws.length)
include hsum hpeak

/-- What the peak is given is off by no more than the rounding of all other taps. -/
theorem abs_peak_sub_le_sum {b : ℚ → ℚ}
    (hb : ∀ w, |(Rational.round (32768 * w) : ℚ) - 32768 * w| ≤ b w) :
    |((one - restSum ws : Int) : ℚ) - 32768 * ws[peak ws]| ≤
      ((ws.eraseIdx (peak ws)).map b).sum := by
  have hrest := abs_restSum_sub_le (b := b) hsum hpeak fun w hw => by
    rw [quantizeTap_of_fits (hfits w (List.mem_of_mem_eraseIdx hw))]
    exact hb w
  rw [abs_sub_comm] at hrest
  convert hrest using 2
  rw [one]
  push_cast
  ring

/-- That is half a unit for each of them. -/
theorem abs_peak_sub_le :
    |((one - restSum ws : Int) : ℚ) - 32768 * ws[peak ws]| ≤ ((ws.length : ℚ) - 1) / 2 := by
  rw [← sum_half_eraseIdx hpeak]
  exact abs_peak_sub_le_sum hfits hsum hpeak fun w => Rational.abs_round_sub_le _

/-- It is also no more than their weights, so that the peak gets no more than all together. -/
theorem abs_peak_le : |((one - restSum ws : Int) : ℚ)| ≤ 32768 * mass ws := by
  have hoff := abs_peak_sub_le_sum hfits hsum hpeak fun w => Rational.abs_round_sub_le_abs _
  have hothers : ((ws.eraseIdx (peak ws)).map fun w => |32768 * w|).sum =
      32768 * mass (ws.eraseIdx (peak ws)) := by
    simp only [abs_scaled, List.sum_map_mul_left, mass]
  have hall := abs_add_mass_eraseIdx hpeak
  have htriangle := abs_sub_abs_le_abs_sub ((one - restSum ws : Int) : ℚ) (32768 * ws[peak ws])
  rw [hothers] at hoff
  rw [abs_scaled] at htriangle
  linarith

end Rounded

/-- Weights that sum to one fit if together they are not extraordinarily large. -/
theorem wordsFit_of_mass_le {ws : List ℚ} (hne : ws ≠ []) (hsum : ws.sum = 1)
    (hmass : mass ws ≤ 65535) : WordsFit ws := by
  have hfits : ∀ w ∈ ws, Word.Fits32 (Rational.round (32768 * w)) := fun w hw =>
    fits_round_of_abs_le ((abs_le_mass hw).trans hmass)
  refine ⟨hfits, ?_⟩
  have hpeak := abs_peak_le hfits hsum (peak_lt hne)
  have hcast : ((|one - restSum ws| : Int) : ℚ) < (2147483648 : Int) := by
    rw [Int.cast_abs]
    push_cast at hpeak ⊢
    linarith
  have hlt : |one - restSum ws| < 2147483648 := by exact_mod_cast hcast
  rw [abs_lt] at hlt
  exact ⟨hlt.1.le, hlt.2⟩

namespace WordsFit

variable {ws : List ℚ} (h : WordsFit ws) (hne : ws ≠ [])
include h

theorem getD_quantize {j : Nat} (hj : j < ws.length) :
    (quantize ws).getD j 0 = if peak ws = j then one - restSum ws else quantizeTap ws[j] := by
  rw [List.getD_eq_getElem?_getD, getElem?_quantize hj, Option.getD_some, h.peak_fits.signed32_eq]

theorem offBy_le_half {j : Nat} (hj : j < ws.length) (hother : j ≠ peak ws) :
    offBy ws j ≤ 1 / 2 := by
  rw [offBy, h.getD_quantize hj, if_neg hother.symm,
    quantizeTap_of_fits (h.rounded _ (List.getElem_mem hj)), List.getD_eq_getElem _ _ hj]
  exact Rational.abs_round_sub_le _

include hne

theorem offBy_peak_le (hsum : ws.sum = 1) : offBy ws (peak ws) ≤ ((ws.length : ℚ) - 1) / 2 := by
  have hpeak := peak_lt hne
  rw [offBy, h.getD_quantize hpeak, if_pos rfl, List.getD_eq_getElem _ _ hpeak]
  exact abs_peak_sub_le h.rounded hsum hpeak

/-- The peak weighs as much as all weights together at most, and the others twice that. -/
theorem sum_abs_quantize_le (hsum : ws.sum = 1) :
    ((((quantize ws).map fun q => |q|).sum : Int) : ℚ) ≤ 3 * 32768 * mass ws := by
  have hpeak := peak_lt hne
  have hlen : peak ws < (quantize ws).length := by rwa [length_quantize]
  have hothers : (quantize ws).eraseIdx (peak ws) = (ws.eraseIdx (peak ws)).map quantizeTap := by
    rw [quantize, List.eraseIdx_modify_of_eq, List.eraseIdx_map]
  have hword := h.getD_quantize hpeak
  rw [if_pos rfl, List.getD_eq_getElem _ _ hlen] at hword
  have hlarge := abs_peak_le h.rounded hsum hpeak
  have hdoubled := sum_abs_quantizeTap_le fun w (hw : w ∈ ws.eraseIdx (peak ws)) =>
    h.rounded w (List.mem_of_mem_eraseIdx hw)
  have hall := abs_add_mass_eraseIdx hpeak
  have hpos := abs_nonneg ws[peak ws]
  rw [← hothers] at hdoubled
  rw [← hword] at hlarge
  rw [← List.CommMonoid.add_sum_eraseIdx (by rwa [List.length_map]), List.getElem_map, Int.cast_add,
    List.eraseIdx_map, Int.cast_abs]
  linarith

end WordsFit

/-- Weights that sum to one and whose words fit become words that are true to them. -/
theorem WordsFit.faithful {ws : List ℚ} (h : WordsFit ws) (hne : ws ≠ []) (hsum : ws.sum = 1) :
    Faithful ws where
  sum_eq := sum_quantize hne h.peak_fits
  near := by
    have hpeak := peak_lt hne
    refine ⟨peak ws, hpeak, fun w hw => ?_, h.offBy_peak_le hne hsum,
      fun j hj hother => h.offBy_le_half hj hother⟩
    rw [List.getD_eq_getElem _ _ hpeak]
    exact abs_le_abs_peak hpeak hw
  sum_abs_le := h.sum_abs_quantize_le hne hsum

end FixedPoint

/-- What channel `c` is interpolated with. -/
def Interpolation.forChannel {α : Type} [Scalar α] (f : Interpolation α) (colors c : Nat) :
    Interpolation α :=
  if c < colors then f else f.forAlpha

/-- The weights of channel `c` in the window of output sample `i`, before they are rounded. -/
def ScaleAxis.sampled (input output colors : Nat) (f : Interpolation ℚ) (i c : Nat) : List ℚ :=
  FixedPoint.normalize ((of input output f).window (f.forChannel colors c) i)

namespace LooseTable

/-- In a table for a change of size, each channel has the words of its own kernel. -/
theorem weight_scale {α : Type} [Scalar α] {input output colors : Nat} {alpha : Bool}
    {f : Interpolation α} {t : LooseTable} (h : scale input output colors alpha f = .ok t)
    {i : Nat} (hi : i < output) {c : Nat} (hc : c < t.channels) {j : Nat}
    (hj : j < ((ScaleAxis.of input output f).weights (f.forChannel colors c) i).length) :
    (t.window i).weights.getD (j * t.channels + c) 0 =
      ((ScaleAxis.of input output f).weights (f.forChannel colors c) i)[j] := by
  obtain ⟨_, -, h⟩ := bind_eq_ok_iff.mp h
  cases h
  have hcolor := length_weights_scale (ScaleAxis.of input output f) f i
  have halpha := length_weights_scale (ScaleAxis.of input output f) f.forAlpha i
  rw [length_weights_scale] at hj
  have hwindow : ∀ taps : Nat → LooseTaps, (LooseTable.mk input
      (ScaleAxis.of input output f).tapCount (colors + alpha.toNat)
        ((List.range output).map taps).toArray).window i = taps i := by
    simp [window, hi]
  rw [hwindow]
  cases alpha with
  | false =>
    have hcolors : c < colors := hc
    simp only [Interpolation.forChannel, if_pos hcolors]
    exact getD_interleave_none (hcolor.symm ▸ hj) hcolors
  | true =>
    refine (getD_interleave_some (hcolor.symm ▸ hj) (halpha.trans hcolor.symm) hc).trans ?_
    simp only [Interpolation.forChannel]
    split <;> rfl

end LooseTable

namespace TapTable

/-- The weights that a window has for a channel are at most as large as `b` together, their signs
aside, and so is what they make of values that are as large as one. A 64-bit register that adds this
up has room for it. -/
structure WeighsAtMost (t : TapTable) (i c : Nat) (b : ℚ) : Prop where
  sum_abs_le : ((∑ j ∈ Finset.range t.tapCount, |t.weight i j c| : Int) : ℚ) ≤ b
  sum_mul_le : ∀ (a : Nat → Int) (m : Int), 0 ≤ m → (∀ j < t.tapCount, |a j| ≤ m) →
    ∀ taps ⊆ Finset.range t.tapCount,
      ((|∑ j ∈ taps, a j * t.weight i j c| : Int) : ℚ) ≤ m * b
  register_eq : ∀ (a : Nat → Int) (m : Int), 0 ≤ m → (∀ j < t.tapCount, |a j| ≤ m) →
    m * b < 2 ^ 63 → ∀ n ≤ t.tapCount,
      Word.accumulate64 (fun j => a j * t.weight i j c) n =
        ∑ j ∈ Finset.range n, a j * t.weight i j c

theorem weighsAtMost_of_sum_abs_le {t : TapTable} {i c : Nat} {b : ℚ}
    (h : ((∑ j ∈ Finset.range t.tapCount, |t.weight i j c| : Int) : ℚ) ≤ b) :
    t.WeighsAtMost i c b := by
  have hscaled {m : Int} (hm : 0 ≤ m) :
      ((m * ∑ j ∈ Finset.range t.tapCount, |t.weight i j c| : Int) : ℚ) ≤ m * b := by
    rw [Int.cast_mul]
    exact mul_le_mul_of_nonneg_left h (by exact_mod_cast hm)
  refine ⟨h, fun a m hm ha taps htaps => ?_, fun a m hm ha hroom n hn => ?_⟩
  · exact (Int.cast_le.mpr (FixedPoint.abs_sum_mul_le htaps hm ha le_rfl)).trans (hscaled hm)
  · have hlt : ((m * ∑ j ∈ Finset.range t.tapCount, |t.weight i j c| : Int) : ℚ) <
        (2 ^ 63 : Int) := by
      push_cast at hscaled ⊢
      exact (hscaled hm).trans_lt hroom
    exact Word.accumulate64_of_abs_le (Int.cast_lt.mp hlt)
      (fun taps htaps => FixedPoint.abs_sum_mul_le htaps hm ha le_rfl) hn

/-- A table for a change of size weighs no more than three times what its kernel does. -/
theorem sum_abs_weight_le {input output colors : Nat} {alpha : Bool} {f : Interpolation ℚ}
    {t : TapTable} (h : scale input output colors alpha f = .ok t) {i : Nat} (hi : i < output)
    {c : Nat} (hc : c < t.channels)
    (hmass : FixedPoint.mass (ScaleAxis.sampled input output colors f i c) ≤ 65535) :
    ((∑ j ∈ Finset.range t.tapCount, |t.weight i j c| : Int) : ℚ) ≤
      3 * 32768 * FixedPoint.mass (ScaleAxis.sampled input output colors f i c) := by
  obtain ⟨loose, hloose, rfl⟩ := map_eq_ok_iff.mp h
  have hplaced := LooseTable.placed_scale hloose
  have hwindow : i < loose.windows.size := hplaced.size_windows.symm ▸ hi
  have hne := (ScaleAxis.of input output f).window_ne_nil (f.forChannel colors c) i
  have hsum : (ScaleAxis.sampled input output colors f i c).sum = 1 := FixedPoint.sum_normalize hne
  have hsampled : ScaleAxis.sampled input output colors f i c ≠ [] :=
    FixedPoint.normalize_ne_nil hne
  have hfaithful := (FixedPoint.wordsFit_of_mass_le hsampled hsum hmass).faithful hsampled hsum
  refine le_trans (Int.cast_le.mpr ?_) hfaithful.sum_abs_le
  have hlen : ((FixedPoint.quantize (ScaleAxis.sampled input output colors f i c)).map
      fun q => |q|).length = loose.tapCount := by
    rw [List.length_map, hplaced.tapCount_eq]
    exact LooseTable.length_weights_scale _ _ _
  calc ∑ j ∈ Finset.range loose.confine.tapCount, |loose.confine.weight i j c|
      ≤ ∑ j ∈ Finset.range loose.tapCount,
          |(loose.window i).weights.getD (j * loose.channels + c) 0| := by
        simp only [weight]
        rw [LooseTable.window_confine loose hwindow, LooseTable.window_eq_getElem hwindow]
        exact LooseTaps.sum_abs_weights_confine_le _ hc
    _ = ((FixedPoint.quantize (ScaleAxis.sampled input output colors f i c)).map
          fun q => |q|).sum := by
        rw [← hlen]
        refine sum_range_getElem fun j hj => ?_
        rw [List.length_map] at hj
        rw [List.getElem_map, LooseTable.weight_scale hloose hi hc hj]
        rfl

section Scale

variable {input output colors : Nat} {alpha : Bool} {f : Interpolation ℚ} {t : TapTable}
  (h : scale input output colors alpha f = .ok t) {i : Nat} (hi : i < output)
  {c : Nat} (hc : c < t.channels)
include h hi hc

theorem lightAt_of_mass_lt
    (hmass : 3 * FixedPoint.mass (ScaleAxis.sampled input output colors f i c) < 4) :
    t.LightAt i c := by
  have hsum := sum_abs_weight_le h hi hc (by linarith)
  have hlt : ((∑ j ∈ Finset.range t.tapCount, |t.weight i j c| : Int) : ℚ) <
      (4 * FixedPoint.one : Int) := by
    rw [FixedPoint.one]
    push_cast at hsum ⊢
    linarith
  exact Int.cast_lt.mp hlt

end Scale

open FixedPoint

end TapTable

end Resampler
