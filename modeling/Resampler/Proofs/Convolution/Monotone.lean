import Resampler.Proofs.Convolution.Unbounded

/-!
The order of averages.

Weights that sum to one and of which none is negative are those of an average. They are light, so
that both passes compute the convolution of the integers, and every step of that
keeps the order of what goes into it: the sums, the two roundings, and the move into the range of
samples. Larger samples make a larger average, be they those of another image or those of another
channel that has the same weights.
-/

namespace Resampler

namespace FixedPoint

theorem dropExactly_le_dropExactly {a b : Int} (h : a ≤ b) (shift : Nat) :
    dropExactly a shift ≤ dropExactly b shift :=
  Int.ediv_le_ediv (by positivity) (Int.add_le_add_right h _)

theorem toSample_le_toSample {a b : Int} (h : a ≤ b) (max : Nat) :
    toSample a max ≤ toSample b max := by
  unfold toSample
  omega

end FixedPoint

namespace TapTable

/-- The weights that a window has for a channel are those of an average. -/
structure AveragesAt (t : TapTable) (i c : Nat) : Prop where
  nonneg : ∀ j < t.tapCount, 0 ≤ t.weight i j c
  sum_eq : ∑ j ∈ Finset.range t.tapCount, t.weight i j c = FixedPoint.one

/-- A window has the same weights for two channels. -/
def AlikeAt (t : TapTable) (i c c' : Nat) : Prop :=
  ∀ j < t.tapCount, t.weight i j c = t.weight i j c'

variable {t : TapTable} {i c c' : Nat}

theorem AveragesAt.congr (h : t.AveragesAt i c) (halike : t.AlikeAt i c c') :
    t.AveragesAt i c' where
  nonneg j hj := halike j hj ▸ h.nonneg j hj
  sum_eq := by
    rw [← h.sum_eq]
    exact Finset.sum_congr rfl fun j hj => (halike j (Finset.mem_range.mp hj)).symm

/-- Weights that are their own sizes sum to one, which is less than four. -/
theorem AveragesAt.lightAt (h : t.AveragesAt i c) : t.LightAt i c := by
  have hsizes : ∑ j ∈ Finset.range t.tapCount, |t.weight i j c| = FixedPoint.one := by
    rw [← h.sum_eq]
    exact Finset.sum_congr rfl fun j hj => abs_of_nonneg (h.nonneg j (Finset.mem_range.mp hj))
  rw [LightAt, hsizes]
  decide

/-- Larger values have a larger average. -/
theorem AveragesAt.sum_mul_le (h : t.AveragesAt i c) (halike : t.AlikeAt i c c') {a b : Nat → Int}
    (hle : ∀ j < t.tapCount, a j ≤ b j) :
    ∑ j ∈ Finset.range t.tapCount, a j * t.weight i j c ≤
      ∑ j ∈ Finset.range t.tapCount, b j * t.weight i j c' := by
  refine Finset.sum_le_sum fun j hj => ?_
  have hj := Finset.mem_range.mp hj
  rw [← halike j hj]
  exact mul_le_mul_of_nonneg_right (hle j hj) (h.nonneg j hj)

end TapTable

namespace Resampling

open FixedPoint

variable {plan : Resampling} {rows rows' : Nat → Bytes} {y x c c' : Nat}

theorem acrossExact_le_acrossExact (havg : plan.horizontal.AveragesAt x c)
    (halike : plan.horizontal.AlikeAt x c c') {s : Nat}
    (h : ∀ i, plan.horizontal.Covers x i →
      plan.kernel.sample (rows s) i c ≤ plan.kernel.sample (rows' s) i c') :
    plan.acrossExact rows s x c ≤ plan.acrossExact rows' s x c' := by
  refine dropExactly_le_dropExactly (havg.sum_mul_le halike fun j hj => ?_) _
  exact Int.ofNat_le.mpr (h _ (plan.horizontal.covers_tap x hj))

/-- Where no sample of the window is larger than that of the other image, in the other channel,
no resampled sample is. -/
theorem convolved_le_convolved (hhorizontal : plan.horizontal.AveragesAt x c)
    (hvertical : plan.vertical.AveragesAt y c) (hacross : plan.horizontal.AlikeAt x c c')
    (hdown : plan.vertical.AlikeAt y c c')
    (h : ∀ s, plan.vertical.Covers y s → ∀ i, plan.horizontal.Covers x i →
      plan.kernel.sample (rows s) i c ≤ plan.kernel.sample (rows' s) i c') :
    plan.convolved rows y x c ≤ plan.convolved rows' y x c' := by
  rw [convolved_eq_convolvedExact rows hhorizontal.lightAt hvertical.lightAt,
    convolved_eq_convolvedExact rows' (hhorizontal.congr hacross).lightAt
      (hvertical.congr hdown).lightAt]
  refine toSample_le_toSample (dropExactly_le_dropExactly
    (hvertical.sum_mul_le hdown fun r hr => ?_) _) _
  exact acrossExact_le_acrossExact hhorizontal hacross
    (h _ (plan.vertical.covers_tap y hr))

end Resampling

end Resampler
