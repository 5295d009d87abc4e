import Mathlib.Algebra.BigOperators.Intervals
import Mathlib.Algebra.Order.BigOperators.Group.Finset
import Mathlib.Algebra.Order.Group.Abs
import Resampler.Proofs.Pixel.Packing
import Resampler.Proofs.Taps.Confined

/-!
What confining does to the weights of a window.

Confining goes through the weights of a loose window one by one and adds each to the
tap that receives it. `weight_confine` reads the outcome off without the loop: a
confined weight is the sum of the loose ones that were given to its tap. A tap lies in the
confined window whatever tap it received from, so nothing is lost on the way, and the sum
over a channel is the same before and after. All of this is about words, which wrap around
at 32 bits; where nothing wraps it is about the numbers themselves.
-/

namespace Resampler

/-- The word of a sum does not depend on whether its terms were read back as words. -/
theorem Word.signed32_sum_signed32 (f : Nat → Int) (n : Nat) :
    signed32 (∑ j ∈ Finset.range n, signed32 (f j)) = signed32 (∑ j ∈ Finset.range n, f j) := by
  induction n with
  | zero => rfl
  | succ n ih =>
    rw [Finset.sum_range_succ, Finset.sum_range_succ, signed32_add_signed32,
      ← signed32_signed32_add, ih, signed32_signed32_add]

/-- Read back as a word, a number is no larger than it was. -/
theorem Word.abs_signed32_le (x : Int) : |signed32 x| ≤ |x| := by
  obtain ⟨hlo, hhi⟩ := signed32_fits x
  rcases lt_or_ge |x| 2147483648 with h | h
  · rw [abs_lt] at h
    rw [signed32_of_fits (by omega) h.2]
  · refine le_trans (abs_le.mpr ⟨hlo, hhi.le⟩) h

/-- A sum over the places of interleaved channels that counts one channel only. -/
theorem sum_range_mul_ite {n channels c : Nat} (hc : c < channels) (p : Nat → Prop)
    [DecidablePred p] (f : Nat → Int) :
    (∑ k ∈ Finset.range (n * channels), if p (k / channels) ∧ k % channels = c then f k else 0) =
      ∑ j ∈ Finset.range n, if p j then f (j * channels + c) else 0 := by
  induction n with
  | zero => simp
  | succ n ih =>
    rw [Nat.succ_mul, Finset.sum_range_add, ih, Finset.sum_range_succ]
    congr 1
    have hplace : ∀ d ∈ Finset.range channels,
        (if p ((n * channels + d) / channels) ∧ (n * channels + d) % channels = c
          then f (n * channels + d) else 0) =
        if d = c then (if p n then f (n * channels + c) else 0) else 0 := by
      intro d hd
      have hlt := Finset.mem_range.mp hd
      rw [RowKernel.place_div hlt, RowKernel.place_mod hlt]
      by_cases hdc : d = c
      · subst hdc
        simp
      · simp [hdc]
    rw [Finset.sum_congr rfl hplace, Finset.sum_ite_eq' (Finset.range channels) c,
      if_pos (Finset.mem_range.mpr hc)]

namespace LooseTaps

/-- Adding words to places of a blank array gathers in each place what was meant for it. -/
theorem getD_foldl_gather {size i : Nat} (hi : i < size) (place : Nat → Nat) (value : Nat → Int)
    (n : Nat) :
    ((List.range n).foldl (fun acc k => acc.modify (place k) fun w =>
      Word.signed32 (w + value k)) (Array.replicate size 0)).getD i 0 =
        Word.signed32 (∑ k ∈ Finset.range n, if place k = i then value k else 0) := by
  induction n with
  | zero => simp [hi, Word.signed32]
  | succ n ih =>
    have hsize := size_foldl_modify place (fun k w => Word.signed32 (w + value k))
      (List.range n) (Array.replicate size 0)
    rw [Array.size_replicate] at hsize
    rw [List.range_succ, List.foldl_append, List.foldl_cons, List.foldl_nil, Finset.sum_range_succ]
    rw [Array.getD_eq_getD_getElem?, Array.getElem?_eq_getElem (by omega), Option.getD_some] at ih
    rw [Array.getD_eq_getD_getElem?, Array.getElem?_modify, Array.getElem?_eq_getElem (by omega),
      Option.map_some]
    by_cases hplace : place n = i
    · simp [hplace, ih]
    · simp [hplace, ih]

section

variable {inputSize tapCount channels : Nat} {start : Int}

theorem receivingTap_lt (hinput : 0 < inputSize) {j : Nat} (hj : j < tapCount) :
    receivingTap inputSize (min tapCount inputSize) start j < min tapCount inputSize := by
  unfold receivingTap nearestSample confinedStart
  omega

/-- A confined weight is the sum of the weights that its tap received. -/
theorem weight_confine (e : LooseTaps) {t c : Nat} (ht : t < min tapCount inputSize)
    (hc : c < channels) :
    (confine inputSize tapCount channels e).weights.getD (t * channels + c) 0 =
      Word.signed32 (∑ j ∈ Finset.range tapCount,
        if receivingTap inputSize (min tapCount inputSize) e.start j = t
          then e.weights.getD (j * channels + c) 0 else 0) := by
  have hplace : ∀ k, (receivingTap inputSize (min tapCount inputSize) e.start (k / channels) *
      channels + k % channels = t * channels + c ↔
        receivingTap inputSize (min tapCount inputSize) e.start (k / channels) = t ∧
          k % channels = c) := by
    intro k
    constructor
    · intro h
      have hmod := Nat.mod_lt k (show 0 < channels by omega)
      have hdiv := congrArg (· / channels) h
      have hrest := congrArg (· % channels) h
      simp only [RowKernel.place_div hmod, RowKernel.place_div hc] at hdiv
      simp only [RowKernel.place_mod hmod, RowKernel.place_mod hc] at hrest
      exact ⟨hdiv, hrest⟩
    · rintro ⟨h, h'⟩
      rw [h, h']
  simp only [confine]
  rw [getD_foldl_gather (RowKernel.place_lt ht hc)]
  simp only [hplace]
  rw [sum_range_mul_ite hc (fun j => receivingTap inputSize (min tapCount inputSize) e.start j = t)
    fun k => e.weights.getD k 0]

/-- Confining moves weight between the taps of a channel and keeps its sum. -/
theorem sum_weights_confine (hinput : 0 < inputSize) (e : LooseTaps) {c : Nat}
    (hc : c < channels) :
    Word.signed32 (∑ t ∈ Finset.range (min tapCount inputSize),
        (confine inputSize tapCount channels e).weights.getD (t * channels + c) 0) =
      Word.signed32 (∑ j ∈ Finset.range tapCount, e.weights.getD (j * channels + c) 0) := by
  rw [Finset.sum_congr rfl fun t ht => weight_confine e (Finset.mem_range.mp ht) hc,
    Word.signed32_sum_signed32, Finset.sum_comm]
  congr 1
  refine Finset.sum_congr rfl fun j hj => ?_
  -- each tap gives its weight to one tap of the confined window
  rw [Finset.sum_ite_eq, if_pos]
  exact Finset.mem_range.mpr (receivingTap_lt hinput (Finset.mem_range.mp hj))

/-- Confining lets weights of different sign cancel, but never makes those of a channel larger
together. -/
theorem sum_abs_weights_confine_le (e : LooseTaps) {c : Nat} (hc : c < channels) :
    ∑ t ∈ Finset.range (min tapCount inputSize),
        |(confine inputSize tapCount channels e).weights.getD (t * channels + c) 0| ≤
      ∑ j ∈ Finset.range tapCount, |e.weights.getD (j * channels + c) 0| := by
  have hconfined : ∀ t ∈ Finset.range (min tapCount inputSize),
      |(confine inputSize tapCount channels e).weights.getD (t * channels + c) 0| ≤
        ∑ j ∈ Finset.range tapCount,
          if receivingTap inputSize (min tapCount inputSize) e.start j = t
            then |e.weights.getD (j * channels + c) 0| else 0 := by
    intro t ht
    rw [weight_confine e (Finset.mem_range.mp ht) hc]
    refine (Word.abs_signed32_le _).trans ((Finset.abs_sum_le_sum_abs _ _).trans_eq ?_)
    refine Finset.sum_congr rfl fun j _ => ?_
    rw [apply_ite abs, abs_zero]
  refine (Finset.sum_le_sum hconfined).trans ?_
  rw [Finset.sum_comm]
  refine Finset.sum_le_sum fun j _ => ?_
  -- each tap gives its weight to one tap of the confined window
  rw [Finset.sum_ite_eq]
  split
  · exact le_rfl
  · exact abs_nonneg _

end

end LooseTaps

end Resampler
