import Resampler.Proofs.Convolution.Monotone
import Resampler.Proofs.Stage.Local

/-!
Averages of a window.

A sample whose weights are those of an average lies between the samples that it is made of, and
exactly so: bounds of them that are whole numbers are carried through both sums as multiples of
what is dropped afterwards, so that neither rounding takes the sample past them. It also
follows the samples up and down, from one image to another.
-/

namespace Resampler

namespace FixedPoint

/-- What is at least a multiple of what is dropped is so afterwards. -/
theorem le_dropExactly {v acc : Int} {shift : Nat} (hpos : 0 < shift) (h : v * 2 ^ shift ≤ acc) :
    v ≤ dropExactly acc shift := by
  rw [← mul_pow_add_half_ediv v hpos]
  exact dropExactly_le_dropExactly h shift

/-- What is at most a multiple of what is dropped is so afterwards. -/
theorem dropExactly_le {v acc : Int} {shift : Nat} (hpos : 0 < shift) (h : acc ≤ v * 2 ^ shift) :
    dropExactly acc shift ≤ v := by
  rw [← mul_pow_add_half_ediv v hpos]
  exact dropExactly_le_dropExactly h shift

theorem toSample_le {v : Int} {hi : Nat} (h : v ≤ hi) (max : Nat) : toSample v max ≤ hi := by
  unfold toSample
  omega

theorem le_toSample {v : Int} {lo max : Nat} (h : (lo : Int) ≤ v) (hmax : lo ≤ max) :
    lo ≤ toSample v max := by
  unfold toSample
  omega

end FixedPoint

namespace TapTable.AveragesAt

variable {t : TapTable} {i c : Nat} (h : t.AveragesAt i c)
include h

theorem tapCount_pos : 0 < t.tapCount := by
  rw [Nat.pos_iff_ne_zero]
  intro hzero
  have hsum := h.sum_eq
  rw [hzero, Finset.sum_range_zero] at hsum
  cases hsum

theorem sum_const_mul (v : Int) :
    ∑ j ∈ Finset.range t.tapCount, v * t.weight i j c = v * FixedPoint.one := by
  rw [← Finset.mul_sum, h.sum_eq]

theorem le_sum_mul {a : Nat → Int} {lo : Int} (hlo : ∀ j < t.tapCount, lo ≤ a j) :
    lo * FixedPoint.one ≤ ∑ j ∈ Finset.range t.tapCount, a j * t.weight i j c := by
  rw [← h.sum_const_mul lo]
  exact h.sum_mul_le (fun _ _ => rfl) hlo

theorem sum_mul_le_of_le {a : Nat → Int} {hi : Int} (hhi : ∀ j < t.tapCount, a j ≤ hi) :
    ∑ j ∈ Finset.range t.tapCount, a j * t.weight i j c ≤ hi * FixedPoint.one := by
  rw [← h.sum_const_mul hi]
  exact h.sum_mul_le (fun _ _ => rfl) hhi

end TapTable.AveragesAt

namespace Resampling

open FixedPoint

variable (plan : Resampling)

/-- All samples of channel `c` in the window of the sample in column `x` and row `y` lie between
`lo` and `hi`. -/
def WithinAt (rows : Nat → Bytes) (y x c lo hi : Nat) : Prop :=
  ∀ s, plan.vertical.Covers y s → ∀ i, plan.horizontal.Covers x i →
    ∃ v ∈ plan.kernel.width.load? (rows s) (i * plan.kernel.channels + c), lo ≤ v ∧ v ≤ hi

/-- No sample of channel `c` in the window of the sample in column `x` and row `y` is larger in
the first source than in the second. -/
def AtMostAt (rows rows' : Nat → Bytes) (y x c : Nat) : Prop :=
  ∀ s, plan.vertical.Covers y s → ∀ i, plan.horizontal.Covers x i →
    ∃ v ∈ plan.kernel.width.load? (rows s) (i * plan.kernel.channels + c),
      ∃ v' ∈ plan.kernel.width.load? (rows' s) (i * plan.kernel.channels + c), v ≤ v'

variable {plan} {rows rows' : Nat → Bytes} {y x c lo hi : Nat}

theorem WithinAt.sample_mem (h : plan.WithinAt rows y x c lo hi) {s i : Nat}
    (hs : plan.vertical.Covers y s) (hcol : plan.horizontal.Covers x i) :
    lo ≤ plan.kernel.sample (rows s) i c ∧ plan.kernel.sample (rows s) i c ≤ hi := by
  obtain ⟨v, hv, hbounds⟩ := h s hs i hcol
  rwa [RowKernel.sample_of_load? hv]

theorem AtMostAt.sample_le (h : plan.AtMostAt rows rows' y x c) {s i : Nat}
    (hs : plan.vertical.Covers y s) (hcol : plan.horizontal.Covers x i) :
    plan.kernel.sample (rows s) i c ≤ plan.kernel.sample (rows' s) i c := by
  obtain ⟨v, hv, v', hv', hle⟩ := h s hs i hcol
  rwa [RowKernel.sample_of_load? hv, RowKernel.sample_of_load? hv']

section Within

variable (hhorizontal : plan.horizontal.AveragesAt x c)
include hhorizontal

/-- The bounds of the samples that a sample between the passes is made of bound it, with the bits
that it has room for. -/
theorem acrossExact_mem {s : Nat} (h : ∀ i, plan.horizontal.Covers x i →
    lo ≤ plan.kernel.sample (rows s) i c ∧ plan.kernel.sample (rows s) i c ≤ hi) :
    (lo : Int) * 2 ^ guardBits ≤ plan.acrossExact rows s x c ∧
      plan.acrossExact rows s x c ≤ hi * 2 ^ guardBits := by
  have htap (j : Nat) (hj : j < plan.horizontal.tapCount) :=
    h _ (plan.horizontal.covers_tap x hj)
  constructor
  · refine le_dropExactly (by decide) ?_
    rw [← mul_one_eq_horizontal]
    exact hhorizontal.le_sum_mul fun j hj => Int.ofNat_le.mpr (htap j hj).1
  · refine dropExactly_le (by decide) ?_
    rw [← mul_one_eq_horizontal]
    exact hhorizontal.sum_mul_le_of_le fun j hj => Int.ofNat_le.mpr (htap j hj).2

/-- The bounds of the samples that a resampled sample is made of bound it. -/
theorem convolved_mem (hvertical : plan.vertical.AveragesAt y c)
    (h : plan.WithinAt rows y x c lo hi) :
    lo ≤ plan.convolved rows y x c ∧ plan.convolved rows y x c ≤ hi := by
  have hrow (r : Nat) (hr : r < plan.vertical.tapCount) :=
    acrossExact_mem hhorizontal fun i hcol => h.sample_mem (plan.vertical.covers_tap y hr) hcol
  rw [convolved_eq_convolvedExact rows hhorizontal.lightAt hvertical.lightAt]
  constructor
  · have hmax : lo ≤ plan.kernel.width.max :=
      (h.sample_mem (plan.vertical.covers_tap y hvertical.tapCount_pos)
        (plan.horizontal.covers_tap x hhorizontal.tapCount_pos)).1.trans
          (plan.kernel.sample_le _ _ _)
    refine le_toSample (le_dropExactly (by decide) ?_) hmax
    rw [← mul_one_eq_vertical]
    exact hvertical.le_sum_mul fun r hr => (hrow r hr).1
  · refine toSample_le (dropExactly_le (by decide) ?_) _
    rw [← mul_one_eq_vertical]
    exact hvertical.sum_mul_le_of_le fun r hr => (hrow r hr).2

end Within

variable {σ τ : Type} {below : Source σ} {below' : Source τ}

/-- Two stages with the same tables were asked whatever they were asked before, and the weights
that a sample has in its channel are those of an average. What the stages now answer with lies
between any bounds that the samples in its window have, and the answers are in order if these
samples are. -/
theorem copy_averaged (hseat : plan.Seated below) (hseat' : plan.Seated below')
    (hhorizontal : plan.horizontal.AveragesAt x c) (hvertical : plan.vertical.AveragesAt y c)
    {s₀ : σ} {s₀' : τ} (hsteady : below.Steady s₀ rows) (hsteady' : below'.Steady s₀' rows')
    (asked asked' : List (Request × Bytes)) {q q' : Request} {buffer buffer' : Bytes}
    {reply : Reply (State σ)} {reply' : Reply (State τ)}
    (hreply : reply = (plan.source below).copy q buffer
      ((plan.source below).after (.initial s₀) asked))
    (hreply' : reply' = (plan.source below').copy q' buffer'
      ((plan.source below').after (.initial s₀') asked'))
    (hok : reply.result = .ok ()) (hok' : reply'.result = .ok ()) (hin : q.region.Includes y x)
    (hin' : q'.region.Includes y x) (hc : c < plan.kernel.channels) :
    ∃ v v', plan.answered? q reply.buffer y x c = some v ∧
      plan.answered? q' reply'.buffer y x c = some v' ∧
      (∀ lo hi, plan.WithinAt rows y x c lo hi → lo ≤ v ∧ v ≤ hi) ∧
      (plan.AtMostAt rows rows' y x c → v ≤ v') :=
  ⟨_, _, hseat.answered?_copy hsteady asked hreply hok hin hc,
    hseat'.answered?_copy hsteady' asked' hreply' hok' hin' hc,
    fun _ _ h => convolved_mem hhorizontal hvertical h,
    fun h => convolved_le_convolved hhorizontal hvertical (fun _ _ => rfl) (fun _ _ => rfl)
      fun _ hs _ hcol => h.sample_le hs hcol⟩

/-- Takes the middle pixel of three for all but two parts of 32768, and the second of two rows for
all but one. -/
def middleTriple : Resampling where
  sourceSize := ⟨3, 2⟩
  format := .grey8
  kernel := ⟨1, .eight, .none⟩
  horizontal := ⟨3, 3, 1, #[⟨0, #[1, 32766, 1]⟩]⟩
  vertical := ⟨2, 2, 1, #[⟨0, #[1, 32767]⟩]⟩
  keepsSource := false

/-- The samples lie between 10 and 250, and so does what is made of them. In the other image some
are larger and none is smaller. -/
theorem copy_averaged_middleTriple :
    let img : Image := ⟨⟨3, 2⟩, .grey8, #[10, 200, 30, 20, 250, 40], by decide, by decide⟩
    let img' : Image := ⟨⟨3, 2⟩, .grey8, #[10, 255, 30, 255, 251, 40], by decide, by decide⟩
    let src : Source Unit := img.source
    let src' : Source Unit := img'.source
    let pixel : Request × Bytes := (⟨⟨0, 0, 1, 1⟩, 1⟩, #[0])
    let reply := (middleTriple.source src).copy pixel.1 pixel.2 (.initial ())
    let reply' := (middleTriple.source src').copy pixel.1 pixel.2
      ((middleTriple.source src').after (.initial ()) [pixel])
    ∃ v v', middleTriple.answered? pixel.1 reply.buffer 0 0 0 = some v ∧
      middleTriple.answered? pixel.1 reply'.buffer 0 0 0 = some v' ∧
        10 ≤ v ∧ v ≤ 250 ∧ v ≤ v' := by
  intro img img' src src' pixel reply reply'
  have hfits : middleTriple.Fits :=
    ⟨rfl, ⟨by decide, by decide⟩, ⟨by decide, by decide⟩, rfl, rfl, rfl, rfl⟩
  have hseat : middleTriple.Seated src := ⟨hfits, rfl, rfl⟩
  have hseat' : middleTriple.Seated src' := ⟨hfits, rfl, rfl⟩
  have hhorizontal : middleTriple.horizontal.AveragesAt 0 0 := ⟨by decide, by decide⟩
  have hvertical : middleTriple.vertical.AveragesAt 0 0 := ⟨by decide, by decide⟩
  have hin : pixel.1.region.Includes 0 0 := ⟨by decide, by decide, by decide, by decide⟩
  have hserves : src.Serves (fun _ => True) img.row fun _ => False := img.serves
  have hserves' : src'.Serves (fun _ => True) img'.row fun _ => False := img'.serves
  -- the window covers all of either image
  have hwithin : middleTriple.WithinAt img.row 0 0 0 10 250 := by
    have : ∀ s < 2, ∀ i < 3, ∃ v ∈ SampleWidth.eight.load? (img.row s) (i * 1 + 0),
        10 ≤ v ∧ v ≤ 250 := by decide +kernel
    exact fun s hs i hcol => this s hs.2 i hcol.2
  have hmost : middleTriple.AtMostAt img.row img'.row 0 0 0 := by
    have : ∀ s < 2, ∀ i < 3, ∃ v ∈ SampleWidth.eight.load? (img.row s) (i * 1 + 0),
        ∃ v' ∈ SampleWidth.eight.load? (img'.row s) (i * 1 + 0), v ≤ v' := by decide +kernel
    exact fun s hs i hcol => this s hs.2 i hcol.2
  obtain ⟨v, v', hv, hv', hbounds, hle⟩ := copy_averaged hseat hseat' hhorizontal hvertical
    (hserves.steady trivial) (hserves'.steady trivial) [] [pixel] (rfl : reply = _)
    (rfl : reply' = _) (by decide +kernel) (by decide +kernel) hin hin (c := 0) (by decide)
  exact ⟨v, v', hv, hv', (hbounds 10 250 hwithin).1, (hbounds 10 250 hwithin).2, hle hmost⟩

end Resampling

end Resampler
