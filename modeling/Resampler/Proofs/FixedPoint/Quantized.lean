import Mathlib.Algebra.Order.BigOperators.Group.List
import Resampler.Proofs.FixedPoint
import Resampler.Proofs.Rational
import Resampler.Proofs.Taps.Balanced

/-!
The quantized weights of averages.

Rounding a weight that is not negative gives a word that is not negative, but the tap of largest
magnitude, the peak, is not rounded. It gets what the others leave of one, and when these were
all rounded up, that may be less than nothing: their excess grows with the number of taps, whereas
the share of the peak shrinks. So the words of an average are those of an average as long as the
words of the other taps sum to no more than one (`quantize_nonneg_iff`). In exact arithmetic
this is so for all averages of up to 257 taps, and not for all of any larger number.
-/

namespace Resampler

namespace FixedPoint

section Words

variable {α : Type} [Scalar α] {ws : List α}

/-- What the words of all taps but the peak sum to. -/
def restSum (ws : List α) : Int := ((ws.map quantizeTap).eraseIdx (peak ws)).sum

theorem quantizeTap_peak_add_restSum (hpeak : peak ws < ws.length) :
    quantizeTap ws[peak ws] + restSum ws = (ws.map quantizeTap).sum := by
  have hword : peak ws < (ws.map quantizeTap).length := by rwa [List.length_map]
  rw [restSum, ← List.CommMonoid.add_sum_eraseIdx hword, List.getElem_map]

/-- The peak gets what the other taps leave of one, and each of these its own word. -/
theorem getElem?_quantize {j : Nat} (hj : j < ws.length) :
    (quantize ws)[j]? =
      some (if peak ws = j then Word.signed32 (one - restSum ws) else quantizeTap ws[j]) := by
  have hne : ws ≠ [] := List.ne_nil_of_length_pos (by omega)
  have hsum := quantizeTap_peak_add_restSum (peak_lt hne)
  rw [List.getElem?_eq_getElem (by rwa [length_quantize])]
  simp only [quantize, List.getElem_modify, List.getElem_map, ← List.sum_eq_foldl]
  split
  · subst_vars
    congr 2
    omega
  · rfl

/-- If the words of the other taps are not negative, none is negative exactly as long as these sum
to no more than one. -/
theorem quantize_nonneg_iff (h : ws ≠ []) (hwords : ∀ w ∈ ws, 0 ≤ quantizeTap w)
    (hfits : Word.Fits32 (one - restSum ws)) :
    (∀ q ∈ quantize ws, 0 ≤ q) ↔ restSum ws ≤ one := by
  constructor
  · intro hall
    have hword := getElem?_quantize (peak_lt h)
    rw [if_pos rfl, hfits.signed32_eq] at hword
    exact Int.sub_nonneg.mp (hall _ (List.mem_of_getElem? hword))
  · intro hrest q hq
    obtain ⟨j, hj, rfl⟩ := List.getElem_of_mem hq
    have hlen : j < ws.length := by rwa [length_quantize] at hj
    have hword := getElem?_quantize hlen
    rw [List.getElem?_eq_getElem hj] at hword
    rw [Option.some.inj hword]
    split
    · rw [hfits.signed32_eq]
      exact Int.sub_nonneg.mpr hrest
    · exact hwords _ (List.getElem_mem hlen)

/-- Unless the peak wraps around, the words sum to one. -/
theorem sum_quantize (h : ws ≠ []) (hfits : Word.Fits32 (one - restSum ws)) :
    (quantize ws).sum = one := by
  have hpeak : peak ws < (ws.map quantizeTap).length := by
    rw [List.length_map]
    exact peak_lt h
  have hsum := quantizeTap_peak_add_restSum (peak_lt h)
  have hword : (ws.map quantizeTap)[peak ws] + (one - (ws.map quantizeTap).sum) =
      one - restSum ws := by
    rw [List.getElem_map]
    omega
  rw [quantize, sum_modify hpeak, ← List.sum_eq_foldl, hword, hfits.signed32_eq, List.getElem_map]
  omega

end Words

/-- The weights are shares of one. -/
structure Shares (ws : List ℚ) : Prop where
  nonneg : ∀ w ∈ ws, 0 ≤ w
  sum_eq : ws.sum = 1

/-- As long as it is a word, a tap is the nearest one. -/
theorem quantizeTap_of_fits {w : ℚ} (h : Word.Fits32 (Rational.round (32768 * w))) :
    quantizeTap w = Rational.round (32768 * w) := by
  obtain ⟨hlo, hhi⟩ := h
  have hscaled : w * 32768.0 = 32768 * w := by norm_num [mul_comm]
  rw [quantizeTap, Scalar.round_rat, hscaled, Word.saturate32]
  omega

theorem fits_round_of_abs_le {w : ℚ} (h : |w| ≤ 65535) :
    Word.Fits32 (Rational.round (32768 * w)) := by
  have hround := Rational.abs_round_sub_le (32768 * w)
  have hcast : |(Rational.round (32768 * w) : ℚ)| ≤ 2147483647 := by
    rw [abs_le] at h hround ⊢
    constructor <;> linarith
  have hword : |Rational.round (32768 * w)| ≤ 2147483647 := by exact_mod_cast hcast
  rw [abs_le] at hword
  constructor <;> omega

/-- A weight of ordinary size is rounded to the nearest word. -/
theorem abs_quantizeTap_sub_le {w : ℚ} (h : |w| ≤ 65535) :
    |(quantizeTap w : ℚ) - 32768 * w| ≤ 1 / 2 := by
  rw [quantizeTap_of_fits (fits_round_of_abs_le h)]
  exact Rational.abs_round_sub_le _

/-- Rounding all weights of a list moves their sum by no more than all of them together. -/
theorem abs_sum_quantizeTap_sub_le {ws : List ℚ} {b : ℚ → ℚ}
    (h : ∀ w ∈ ws, |(quantizeTap w : ℚ) - 32768 * w| ≤ b w) :
    |((ws.map quantizeTap).sum : ℚ) - 32768 * ws.sum| ≤ (ws.map b).sum := by
  induction ws with
  | nil => simp
  | cons w ws ih =>
    have hw := h w List.mem_cons_self
    have hws := ih fun v hv => h v (List.mem_cons_of_mem w hv)
    rw [List.map_cons, List.sum_cons, List.sum_cons, List.map_cons, List.sum_cons, Int.cast_add]
    rw [abs_le] at hw hws ⊢
    constructor <;> linarith

/-- Where the weights sum to one, what the taps other than the peak get is off by no more than the
rounding of all of them. -/
theorem abs_restSum_sub_le {ws : List ℚ} {b : ℚ → ℚ} (hsum : ws.sum = 1)
    (hpeak : peak ws < ws.length)
    (h : ∀ w ∈ ws.eraseIdx (peak ws), |(quantizeTap w : ℚ) - 32768 * w| ≤ b w) :
    |(restSum ws : ℚ) - 32768 * (1 - ws[peak ws])| ≤ ((ws.eraseIdx (peak ws)).map b).sum := by
  have hrest : (ws.eraseIdx (peak ws)).sum = 1 - ws[peak ws] := by
    rw [← hsum, ← List.CommMonoid.add_sum_eraseIdx hpeak]
    ring
  have hmoved := abs_sum_quantizeTap_sub_le h
  rwa [hrest, ← List.eraseIdx_map] at hmoved

/-- A sum of sizes, one of them taken out. -/
theorem abs_add_sum_abs_eraseIdx {R : Type} [AddCommGroup R] [Lattice R] {xs : List R} {i : Nat}
    (h : i < xs.length) :
    |xs[i]| + ((xs.eraseIdx i).map fun x => |x|).sum = (xs.map fun x => |x|).sum := by
  have hlen : i < (xs.map fun x => |x|).length := by rwa [List.length_map]
  rw [← List.eraseIdx_map, ← List.CommMonoid.add_sum_eraseIdx hlen, List.getElem_map]

/-- There is one tap less to be rounded than there are taps. -/
theorem sum_half_eraseIdx {ws : List ℚ} {i : Nat} (h : i < ws.length) :
    ((ws.eraseIdx i).map fun _ => (1 / 2 : ℚ)).sum = (ws.length - 1) / 2 := by
  rw [List.map_const', List.sum_replicate, List.length_eraseIdx_of_lt h, nsmul_eq_mul,
    Nat.cast_sub (by omega), Nat.cast_one]
  ring

section Peak

variable {α : Type} [Scalar α] {β : Type} [LinearOrder β] {size : α → β} {ws : List α}

/-- The peak found so far is no smaller than the taps before it, nor than those that follow. -/
theorem le_peak_go (hsize : ∀ a ∈ ws, ∀ b ∈ ws,
      Scalar.lt (Scalar.abs a) (Scalar.abs b) = decide (size a < size b))
    {rest : List α} {best i : Nat} {weight : α} (hbest : ws[best]? = some weight)
    (hrest : ws.drop i = rest) (hle : ∀ w ∈ ws.take i, size w ≤ size weight) :
    ∃ v, ws[peak.go best weight i rest]? = some v ∧ ∀ w ∈ ws, size w ≤ size v := by
  -- on the taps that are left, which the peak found so far has not been compared to
  induction rest generalizing best weight i with
  | nil =>
    refine ⟨weight, hbest, fun w hw => hle w ?_⟩
    rwa [List.take_of_length_le (List.drop_eq_nil_iff.mp hrest)]
  | cons u rest ih =>
    have hi : i < ws.length := by
      by_contra hlen
      rw [List.drop_eq_nil_of_le (by omega)] at hrest
      cases hrest
    rw [List.drop_eq_getElem_cons hi] at hrest
    obtain ⟨hu, hdrop⟩ := List.cons.inj hrest
    have hmem : u ∈ ws := hu ▸ List.getElem_mem hi
    have htake {v : α} (hbefore : ∀ w ∈ ws.take i, size w ≤ size v) (hv : size u ≤ size v) :
        ∀ w ∈ ws.take (i + 1), size w ≤ size v := by
      intro w hw
      rw [List.take_succ_eq_append_getElem hi, List.mem_append, List.mem_singleton, hu] at hw
      rcases hw with hw | rfl
      · exact hbefore w hw
      · exact hv
    rw [peak.go]
    simp only [hsize weight (List.mem_of_getElem? hbest) u hmem, decide_eq_true_eq]
    split
    case isTrue hlt =>
      refine ih (List.getElem?_eq_some_iff.mpr ⟨hi, hu⟩) hdrop (htake (fun w hw => ?_) le_rfl)
      exact (hle w hw).trans hlt.le
    case isFalse hge => exact ih hbest hdrop (htake hle (not_lt.mp hge))

/-- No tap is larger than the peak. -/
theorem le_peak (hsize : ∀ a ∈ ws, ∀ b ∈ ws,
      Scalar.lt (Scalar.abs a) (Scalar.abs b) = decide (size a < size b))
    (hpeak : peak ws < ws.length) {w : α} (hw : w ∈ ws) : size w ≤ size ws[peak ws] := by
  cases ws with
  | nil => cases hw
  | cons u rest =>
    obtain ⟨v, hv, hmax⟩ := le_peak_go hsize (show (u :: rest)[0]? = some u from rfl)
      (show (u :: rest).drop 1 = rest from rfl) (by simp)
    have htop : (u :: rest)[peak (u :: rest)] = v := (List.getElem_eq_iff _).mpr hv
    rw [htop]
    exact hmax w hw

/-- A tap that is larger than all others is the peak. -/
theorem peak_eq (hsize : ∀ a ∈ ws, ∀ b ∈ ws,
      Scalar.lt (Scalar.abs a) (Scalar.abs b) = decide (size a < size b))
    {r : Nat} (hr : r < ws.length)
    (hlarge : ∀ j (hj : j < ws.length), j ≠ r → size ws[j] < size ws[r]) : peak ws = r := by
  have hpeak := peak_lt (List.ne_nil_of_length_pos (by omega : 0 < ws.length))
  by_contra hne
  exact absurd (le_peak hsize hpeak (List.getElem_mem hr)) (not_le.mpr (hlarge _ hpeak hne))

end Peak

/-- In exact arithmetic sizes are absolute values. -/
theorem abs_le_abs_peak {ws : List ℚ} (hpeak : peak ws < ws.length) {w : ℚ} (hw : w ∈ ws) :
    |w| ≤ |ws[peak ws]| := by
  refine le_peak (fun a _ b _ => ?_) hpeak hw
  rw [Scalar.lt_rat, Scalar.abs_rat, Scalar.abs_rat]

namespace Shares

variable {ws : List ℚ} (h : Shares ws)
include h

theorem ne_nil : ws ≠ [] := by
  rintro rfl
  exact absurd h.sum_eq (by simp)

theorem le_one {w : ℚ} (hw : w ∈ ws) : w ≤ 1 := by
  rw [← h.sum_eq]
  exact List.single_le_sum h.nonneg w hw

theorem abs_le_of_mem {w : ℚ} (hw : w ∈ ws) : |w| ≤ 65535 := by
  rw [abs_of_nonneg (h.nonneg w hw)]
  linarith [h.le_one hw]

theorem quantizeTap_nonneg {w : ℚ} (hw : w ∈ ws) : 0 ≤ quantizeTap w := by
  have hround := (abs_le.mp (abs_quantizeTap_sub_le (h.abs_le_of_mem hw))).1
  have hpos := h.nonneg w hw
  have hcast : (-1 : ℚ) < quantizeTap w := by linarith
  have : -1 < quantizeTap w := by exact_mod_cast hcast
  omega

theorem peak_lt : peak ws < ws.length := FixedPoint.peak_lt h.ne_nil

/-- The peak has its share at least. -/
theorem one_le_length_mul_peak (hpeak : peak ws < ws.length) : 1 ≤ ws.length * ws[peak ws] := by
  have hmax : ∀ w ∈ ws, w ≤ ws[peak ws] := by
    intro w hw
    have hle := abs_le_abs_peak hpeak hw
    rwa [abs_of_nonneg (h.nonneg w hw), abs_of_nonneg (h.nonneg _ (List.getElem_mem hpeak))] at hle
  calc (1 : ℚ) = ws.sum := h.sum_eq.symm
    _ ≤ ws.length • ws[peak ws] := List.sum_le_card_nsmul _ _ hmax
    _ = ws.length * ws[peak ws] := nsmul_eq_mul _ _

/-- What the other taps get: their share and at most a half for each of them. -/
theorem abs_restSum_sub_le (hpeak : peak ws < ws.length) :
    |(restSum ws : ℚ) - 32768 * (1 - ws[peak ws])| ≤ (ws.length - 1) / 2 := by
  rw [← sum_half_eraseIdx hpeak]
  exact FixedPoint.abs_restSum_sub_le h.sum_eq hpeak fun w hw =>
    abs_quantizeTap_sub_le (h.abs_le_of_mem (List.mem_of_mem_eraseIdx hw))

/-- With up to 257 taps, what they were rounded up by is less than the share of the peak. -/
theorem restSum_le (hlen : ws.length ≤ 257) : restSum ws ≤ one := by
  have hpeak := h.peak_lt
  have hrest := (abs_le.mp (h.abs_restSum_sub_le hpeak)).2
  have hn : (ws.length : ℚ) ≤ 257 := by exact_mod_cast hlen
  have hshare : 1 ≤ 257 * ws[peak ws] := (h.one_le_length_mul_peak hpeak).trans
    (mul_le_mul_of_nonneg_right hn (h.nonneg _ (List.getElem_mem hpeak)))
  -- 32768 / 257 is more than 127, so that less than one unit too many is left to be rounded off
  have hcast : (restSum ws : ℚ) < one + 1 := by
    rw [one]
    push_cast
    linarith
  have hlt : restSum ws < one + 1 := by exact_mod_cast hcast
  omega

theorem restSum_nonneg : 0 ≤ restSum ws := by
  refine List.sum_nonneg fun q hq => ?_
  obtain ⟨w, hw, rfl⟩ := List.mem_map.mp (List.mem_of_mem_eraseIdx hq)
  exact h.quantizeTap_nonneg hw

theorem fits_peak (hlen : ws.length ≤ 257) : Word.Fits32 (one - restSum ws) := by
  have hlo := h.restSum_nonneg
  have hhi := h.restSum_le hlen
  simp only [one] at hhi ⊢
  constructor <;> omega

theorem quantize_nonneg (hlen : ws.length ≤ 257) : ∀ q ∈ quantize ws, 0 ≤ q :=
  (quantize_nonneg_iff h.ne_nil (fun _ hw => h.quantizeTap_nonneg hw) (h.fits_peak hlen)).mpr
    (h.restSum_le hlen)

theorem sum_quantize_eq (hlen : ws.length ≤ 257) : (quantize ws).sum = one :=
  sum_quantize h.ne_nil (h.fits_peak hlen)

end Shares

theorem peak_go_eq {weight : ℚ} {ws : List ℚ} (best i : Nat) (h : ∀ w ∈ ws, |w| ≤ |weight|) :
    peak.go best weight i ws = best := by
  induction ws generalizing i with
  | nil => rfl
  | cons w ws ih =>
    rw [peak.go, Scalar.lt_rat, Scalar.abs_rat, Scalar.abs_rat,
      if_neg (by simpa using h w List.mem_cons_self)]
    exact ih (i + 1) fun v hv => h v (List.mem_cons_of_mem w hv)

/-- Where the first tap is as large as any, the others keep their words. -/
theorem restSum_cons {w : ℚ} {ws : List ℚ} (h : ∀ v ∈ ws, |v| ≤ |w|) :
    restSum (w :: ws) = (ws.map quantizeTap).sum := by
  rw [restSum, peak, peak_go_eq 0 1 h]
  rfl

/-- 131 weights of 127 words and a half, 127 of 126 and a half, and any number of zeros. All
halves are rounded up, and the first tap is left to make up for it. -/
def halves (zeros : Nat) : List ℚ :=
  255 / 65536 :: (List.replicate 130 (255 / 65536) ++ List.replicate 127 (253 / 65536) ++
    List.replicate zeros 0)

theorem shares_halves (zeros : Nat) : Shares (halves zeros) where
  nonneg w hw := by
    simp only [halves, List.mem_cons, List.mem_append, List.mem_replicate] at hw
    rcases hw with rfl | (⟨-, rfl⟩ | ⟨-, rfl⟩) | ⟨-, rfl⟩ <;> norm_num
  sum_eq := by
    simp only [halves, List.sum_cons, List.sum_append, List.sum_replicate, nsmul_eq_mul]
    norm_num

theorem restSum_halves (zeros : Nat) : restSum (halves zeros) = one + 1 := by
  rw [halves, restSum_cons]
  · have hlarge : quantizeTap (255 / 65536 : ℚ) = 128 := by decide +kernel
    have hsmall : quantizeTap (253 / 65536 : ℚ) = 127 := by decide +kernel
    have hzero : quantizeTap (0 : ℚ) = 0 := by decide +kernel
    simp only [List.map_append, List.map_replicate, List.sum_append, List.sum_replicate, hlarge,
      hsmall, hzero]
    norm_num [one]
  · intro v hv
    simp only [List.mem_append, List.mem_replicate] at hv
    rcases hv with (⟨-, rfl⟩ | ⟨-, rfl⟩) | ⟨-, rfl⟩ <;> norm_num [abs_of_nonneg]

/-- All averages of `n` taps keep words that are not negative exactly if `n` is no more than
257. -/
theorem forall_quantize_nonneg_iff (n : Nat) :
    (∀ ws : List ℚ, ws.length = n → Shares ws → ∀ q ∈ quantize ws, 0 ≤ q) ↔ n ≤ 257 := by
  constructor
  · intro hall
    by_contra hlarge
    have hlen : (halves (n - 258)).length = n := by
      simp only [halves, List.length_cons, List.length_append, List.length_replicate]
      omega
    have havg := shares_halves (n - 258)
    have hrest := (quantize_nonneg_iff havg.ne_nil (fun _ hw => havg.quantizeTap_nonneg hw)
      (by rw [restSum_halves]; decide)).mp (hall _ hlen havg)
    rw [restSum_halves] at hrest
    omega
  · rintro hn ws rfl havg
    exact havg.quantize_nonneg hn

end FixedPoint

end Resampler
