import Resampler.Proofs.Binary64.Scalar
import Resampler.Proofs.Taps.Covering
import Resampler.Proofs.Taps.Replicated
import Resampler.Taps.Scale

/-!
The nearest filter on an axis that keeps its size.

The window of an output sample is the sample itself, and its weight is 1. Up to the last step all
numbers are integers and halves, of which doubles lose nothing; the last step adds a millionth to a
half, which may be rounded but stays below the next integer.
-/

namespace Resampler

open Binary64

namespace ScaleAxis

open Scalar

/-- The support of the nearest filter, in doubles. -/
theorem exists_support :
    ∃ v : ℝ, Is (0.000001 : Float) v ∧ 0 < v ∧ v < 1 / 4 ∧ IsDouble (v * 2) := by
  have h : Is 0.000001 ((4722366482869645 : ℕ) * 2 ^ (-72 : ℤ)) := Is.of_unpack rfl
  refine ⟨_, h, by positivity, ?_, 4722366482869645, -71, by norm_num, by norm_num, by norm_num, ?_⟩
  · norm_num
  · norm_num

section

variable {a : ScaleAxis Float} {n : ℕ} {v : ℝ}

/-- An axis of `n` samples on both sides, and a kernel whose window is a sample. -/
structure Keeps (a : ScaleAxis Float) (n : ℕ) (v : ℝ) : Prop where
  pos : 0 < n
  lt : n < 2 ^ 32
  input : Is a.input n
  output_eq : a.output = a.input
  support : Is a.support v
  support_pos : 0 < v
  support_lt : v < 1 / 4
  isDouble_double : IsDouble (v * 2)
  blur : Is a.blur 1
  offset : Is a.offset (1 / 2)

theorem Keeps.cast_pos (h : a.Keeps n v) : (0 : ℝ) < n := Nat.cast_pos.mpr h.pos

theorem Keeps.output (h : a.Keeps n v) : Is a.output n := h.output_eq ▸ h.input

theorem Keeps.ratio (h : a.Keeps n v) : Is (a.input / a.output) 1 := by
  have hdiv := Is.div h.cast_pos.le h.cast_pos h.input h.output
  rw [div_self h.cast_pos.ne'] at hdiv
  exact hdiv isDouble_one

theorem Keeps.shrink (h : a.Keeps n v) : Is a.shrink 1 := by
  have hdiv := Is.div h.cast_pos.le h.cast_pos h.output h.input
  rw [div_self h.cast_pos.ne'] at hdiv
  have hleast := is_least (hdiv isDouble_one) is_one
  rw [min_self] at hleast
  exact hleast

theorem Keeps.reach (h : a.Keeps n v) : Is a.reach v := by
  have hv := h.support.isDouble h.support_pos.le
  have hone : (1 : ℝ) ≤ n := by exact_mod_cast h.pos
  have hhalf : IsDouble ((n : ℝ) / 2) :=
    ⟨n, -1, h.lt.trans (by norm_num), by norm_num, by norm_num, by rw [zpow_neg_one]; ring⟩
  have hstretched := Is.div h.support_pos.le one_pos h.support h.shrink
  rw [div_one] at hstretched
  have hblurred := Is.mul h.support_pos.le zero_le_one (hstretched hv) h.blur
  rw [mul_one] at hblurred
  have hleast := is_least (hblurred hv) (Is.div h.cast_pos.le two_pos h.input is_two hhalf)
  rw [min_eq_left (by linarith [h.support_lt])] at hleast
  exact hleast

theorem Keeps.tapCount (h : a.Keeps n v) : a.tapCount = 1 := by
  have hwidth := Is.mul h.support_pos.le zero_le_two h.reach is_two h.isDouble_double
  have hceil : ⌈v * 2⌉ = 1 := Int.ceil_eq_iff.mpr
    ⟨by push_cast; linarith [h.support_pos], by push_cast; linarith [h.support_lt]⟩
  rw [ScaleAxis.tapCount, ceil_eq hwidth, hceil]
  rfl

theorem Keeps.center (h : a.Keeps n v) {i : ℕ} (hi : i < n) : Is (a.center i) (i + 1 / 2) := by
  have hlt := h.lt
  have hicast : (0 : ℝ) ≤ i := Nat.cast_nonneg i
  have hi' : Is (ofNat i : Float) i := is_ofNat (by omega)
  have hplace := Is.mul zero_le_one hicast h.ratio hi'
  rw [one_mul] at hplace
  have hdouble : IsDouble ((n : ℝ) * 2) :=
    ⟨n, 1, by omega, by norm_num, by norm_num, by rw [zpow_one]⟩
  have hdifference : Is (a.input - a.output) 0 := by
    rw [h.output_eq]
    exact sub_self_value h.cast_pos.le h.input
  have hshift := Is.div le_rfl (by linarith [h.cast_pos]) hdifference
    (Is.mul h.cast_pos.le zero_le_two h.output is_two hdouble)
  rw [zero_div] at hshift
  have hmiddle := Is.add hicast le_rfl (hplace (isDouble_natCast (by omega))) (hshift isDouble_zero)
  rw [add_zero] at hmiddle
  refine Is.add hicast (by norm_num) (hmiddle (isDouble_natCast (by omega))) h.offset ?_
  exact ⟨2 * i + 1, -1, by omega, by norm_num, by norm_num, by rw [zpow_neg_one]; push_cast; ring⟩

/-- The window starts at the sample itself. -/
theorem Keeps.start (h : a.Keeps n v) {i : ℕ} (hi : i < n) : a.start i = i := by
  have hlt := h.lt
  have hicast : (0 : ℝ) ≤ i := Nat.cast_nonneg i
  obtain ⟨w, hw, hrounded⟩ :=
    add_rounded (by linarith) h.support_pos.le (h.center hi) h.reach
  -- a millionth after the middle, the next integer is still out of reach
  have hlast : IsDouble (i + 3 / 4 : ℝ) :=
    ⟨4 * i + 3, -2, by omega, by norm_num, by norm_num, by norm_num; ring⟩
  obtain ⟨r, rfl, -, hhi⟩ := hrounded.exists_between isDouble_zero hlast
    (by linarith [h.support_pos]) (by linarith [h.support_lt])
  have hlo := hrounded.le_of_ge i (isDouble_natCast (by omega)) (by linarith [h.support_pos])
  have hlo' : (i : ℝ) ≤ r := EReal.coe_le_coe_iff.mp hlo
  have hfloor : ⌊r⌋ = (i : ℤ) := Int.floor_eq_iff.mpr
    ⟨by exact_mod_cast hlo', by push_cast; linarith⟩
  rw [ScaleAxis.start, h.tapCount, floor_eq hw, hfloor]
  unfold Word.saturate64
  omega

/-- Doubles hold all that the nearest filter needs to keep an axis. -/
theorem exists_keeps {n : ℕ} (hn : 0 < n) (hlt : n < 2 ^ 32) :
    ∃ v, (of n n (.plain .point)).Keeps n v := by
  obtain ⟨v, hv, hpos, hsmall, hdouble⟩ := exists_support
  have hinput : Is (ofNat n : Float) n := is_ofNat (by omega)
  have hnarrow : lt (0.000001 : Float) 0.1 = true := by decide +kernel
  have hblur : (of n n (.plain .point) : ScaleAxis Float).blur = 1.0 :=
    show (if lt 0.5 (0.000001 : Float) then (1.0 : Float) else 1.0) = 1.0 from ite_self _
  have hoffset : (of n n (.plain .point) : ScaleAxis Float).offset = 0.5 := if_pos hnarrow
  exact ⟨v, {
    pos := hn
    lt := hlt
    input := hinput
    output_eq := rfl
    support := hv
    support_pos := hpos
    support_lt := hsmall
    isDouble_double := hdouble
    blur := hblur ▸ is_one
    offset := hoffset ▸ is_half }⟩

end

end ScaleAxis

/-- A single sample has all the weight. -/
theorem FixedPoint.quantize_normalize_single :
    quantize (normalize [(1.0 : Float)]) = [one] := by decide +kernel

theorem ScaleAxis.Keeps.weights {a : ScaleAxis Float} {n : ℕ} {v : ℝ} (h : a.Keeps n v) (i : ℕ) :
    a.weights (.plain .point) i = [FixedPoint.one] := by
  have hwindow : a.window (.plain .point) i = [1.0] := by
    rw [window, h.tapCount]
    rfl
  rw [ScaleAxis.weights, hwindow, FixedPoint.quantize_normalize_single]

theorem interleave_single (colors : ℕ) (alpha : Bool) (q : ℤ) :
    interleave colors [q] (if alpha then some [q] else none) =
      Array.replicate (colors + alpha.toNat) q := by
  cases alpha
  · simp [interleave]
  · simp [interleave, ← List.replicate_succ']

/-- On an axis that keeps its size, the nearest filter takes each sample as it is: if memory holds
its weights a table is built, in which a window is one sample, the one in the same place, and its
weight in each channel is 1. -/
theorem TapTable.scale_nearest_identity (size : UInt32) (colors : ℕ) (alpha : Bool)
    (hsize : 0 < size.toNat) (hcolors : 0 < colors)
    (hfits : weightBytes size.toNat 1 (colors + alpha.toNat) < Bytes.limit) :
    ∃ f t, (Filter.nearest : Filter Float).interpolation = .ok f ∧
      (buildScale size.toNat size.toNat colors alpha f).outcome = .ok t ∧
      t.tapCount = 1 ∧ t.outputSize = size.toNat ∧
      ∀ i < size.toNat,
        t.taps? i = some ⟨i, Array.replicate (colors + alpha.toNat) FixedPoint.one⟩ := by
  obtain ⟨v, hkeeps⟩ := ScaleAxis.exists_keeps hsize size.toNat_lt
  obtain ⟨t, ht, hconfined⟩ := LooseTable.exists_scale hsize hsize hcolors alpha
    (.plain .point : Interpolation Float)
  have hwide : ¬Scalar.lt 1.0 (0.000001 : Float) = true := by decide +kernel
  have hsame : (.plain .point : Interpolation Float).forAlpha = .plain .point := if_neg hwide
  have hbytes : scaleBytes size.toNat size.toNat colors alpha (.plain .point : Interpolation Float) =
      weightBytes size.toNat 1 (colors + alpha.toNat) := by
    rw [scaleBytes, if_neg (by omega), hkeeps.tapCount]
  have hbuilt := outcome_buildScale_eq_ok_iff.mpr ⟨hbytes ▸ hfits, hconfined⟩
  obtain ⟨_, -, hloose⟩ := bind_eq_ok_iff.mp ht
  cases hloose
  refine ⟨_, _, rfl, hbuilt, ?_, ?_, fun i hi => ?_⟩
  case refine_1 =>
    simp only [LooseTable.confine, hkeeps.tapCount]
    omega
  case refine_2 => simp
  case refine_3 =>
    have hinside : (i : ℤ) + (1 : ℕ) ≤ size.toNat := by omega
    have hwords : ∀ w ∈ Array.replicate (colors + alpha.toNat) FixedPoint.one, Word.Fits32 w := by
      intro w hw
      rw [(Array.mem_replicate.mp hw).2]
      decide
    simp only [TapTable.taps?, LooseTable.confine, hsame, hkeeps.weights, interleave_single]
    rw [Array.getElem?_map, List.getElem?_toArray, List.getElem?_map, List.getElem?_range hi,
      Option.map_some, Option.map_some, hkeeps.start hi, hkeeps.tapCount,
      LooseTaps.confine_of_inside (by omega) (by simp) hwords one_pos (by simp) hinside]
    rfl

/-- The largest axis that there is, with an alpha channel. -/
theorem TapTable.scale_nearest_identity_largest :
    0 < (4294967295 : UInt32).toNat ∧ 0 < 3 ∧ weightBytes 4294967295 1 4 < Bytes.limit ∧
      ∃ f t, (Filter.nearest : Filter Float).interpolation = .ok f ∧
        (buildScale 4294967295 4294967295 3 true f).outcome = .ok t ∧
        t.taps? 4294967294 = some ⟨4294967294, #[32768, 32768, 32768, 32768]⟩ := by
  refine ⟨by decide, by decide, by decide, ?_⟩
  obtain ⟨f, t, hf, ht, -, -, htaps⟩ :=
    scale_nearest_identity 4294967295 3 true (by decide) (by decide) (by decide)
  exact ⟨f, t, hf, ht, htaps 4294967294 (by decide)⟩

/-- One window with a weight for each of 2^61 channels takes 2^63 bytes, which no memory holds. -/
theorem TapTable.not_scale_nearest_identity_of_many_channels :
    0 < (1 : UInt32).toNat ∧ 0 < 2305843009213693952 ∧
      ¬∃ f t, (Filter.nearest : Filter Float).interpolation = .ok f ∧
        (buildScale (1 : UInt32).toNat (1 : UInt32).toNat 2305843009213693952 false f).outcome =
          .ok t := by
  refine ⟨by decide, by decide, ?_⟩
  rintro ⟨f, t, hf, ht⟩
  cases hf
  have hfits := (outcome_buildScale_eq_ok_iff.mp ht).1
  revert hfits
  decide +kernel

end Resampler
