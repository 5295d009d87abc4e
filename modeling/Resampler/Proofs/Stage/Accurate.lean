import Mathlib.Tactic.FieldSimp
import Resampler.Proofs.Stage.Sampled

/-!
How far resampled samples are from the exact convolution.

The exact convolution of an image with the weights of both tables, `ideal`, is a rational
number. A stage rounds twice on the way to it. The first rounding is off by at most half of a
bit that the second pass drops, in each row of the window, and the second pass carries this over
with the sizes of its weights; the second rounding adds half a unit of its own. All of this is an
inequality between integers, once both sides are multiplied by what the two passes drop.
-/

namespace Resampler

namespace Resampling

open FixedPoint

variable (plan : Resampling) (rows : Nat → Bytes)

/-- No word that a sample is computed with is too short. -/
structure InRange (y x c : Nat) : Prop where
  acrossSum : ∀ r < plan.vertical.tapCount, Word.Fits64
    (plan.acrossSum rows ((plan.vertical.window y).start + r) x c + half horizontalDrop)
  across : ∀ r < plan.vertical.tapCount, Word.Fits32 (dropBits
    (plan.acrossSum rows ((plan.vertical.window y).start + r) x c) horizontalDrop)
  downSum : Word.Fits64 (plan.downSum rows y x c + half verticalDrop)

/-- The exact convolution with the weights of both tables. -/
def ideal (y x c : Nat) : ℚ :=
  (∑ r ∈ Finset.range plan.vertical.tapCount, ∑ j ∈ Finset.range plan.horizontal.tapCount,
    (plan.vertical.weight y r c : ℚ) * plan.horizontal.weight x j c *
      plan.kernel.sample (rows ((plan.vertical.window y).start + r))
        ((plan.horizontal.window x).start + j) c) / 2 ^ 30

variable {plan rows} {y x c : Nat}

/-- The horizontal sums, blended without rounding them first. -/
theorem ideal_eq : plan.ideal rows y x c =
    ((∑ r ∈ Finset.range plan.vertical.tapCount, plan.vertical.weight y r c *
      plan.acrossSum rows ((plan.vertical.window y).start + r) x c : Int) : ℚ) / 2 ^ 30 := by
  unfold ideal acrossSum
  push_cast
  congr 1
  refine Finset.sum_congr rfl fun r _ => ?_
  rw [Finset.mul_sum]
  refine Finset.sum_congr rfl fun j _ => ?_
  ring

/-- Both roundings together, before the result is moved into the range of samples. -/
theorem InRange.abs_sub_le (h : plan.InRange rows y x c) :
    |2 ^ 30 * dropBits (plan.downSum rows y x c) verticalDrop -
        ∑ r ∈ Finset.range plan.vertical.tapCount, plan.vertical.weight y r c *
          plan.acrossSum rows ((plan.vertical.window y).start + r) x c| ≤
      2 ^ 29 + 64 * ∑ r ∈ Finset.range plan.vertical.tapCount, |plan.vertical.weight y r c| := by
  have hacross (r : Nat) (hr : r < plan.vertical.tapCount) :
      |2 ^ 7 * plan.across rows ((plan.vertical.window y).start + r) x c -
        plan.acrossSum rows ((plan.vertical.window y).start + r) x c| ≤ 64 := by
    rw [across_eq, (h.across r hr).signed32_eq]
    exact abs_dropBits_sub_le (by decide) (h.acrossSum r hr)
  have hrows := abs_sum_mul_sub_le (w := fun r => plan.vertical.weight y r c) hacross
  have hdown : |2 ^ 23 * dropBits (plan.downSum rows y x c) verticalDrop -
      plan.downSum rows y x c| ≤ 2 ^ 22 := abs_dropBits_sub_le (by decide) h.downSum
  have hsum : ∑ r ∈ Finset.range plan.vertical.tapCount, plan.vertical.weight y r c *
      (2 ^ 7 * plan.across rows ((plan.vertical.window y).start + r) x c) =
        2 ^ 7 * plan.downSum rows y x c := by
    rw [Resampling.downSum, Finset.mul_sum]
    exact Finset.sum_congr rfl fun r _ => by ring
  rw [hsum] at hrows
  rw [abs_le] at hrows hdown ⊢
  constructor <;> linarith

/-- A sample of the resampled image is close to the exact convolution, moved into the range of
samples. -/
theorem InRange.abs_convolved_sub_le (h : plan.InRange rows y x c) :
    |(plan.convolved rows y x c : ℚ) - clamp (plan.ideal rows y x c) plan.kernel.width.max| ≤
      1 / 2 + (∑ r ∈ Finset.range plan.vertical.tapCount, |(plan.vertical.weight y r c : ℚ)|) /
        2 ^ 24 := by
  rw [convolved_eq, cast_toSample]
  refine (abs_clamp_sub_clamp_le _ _ _).trans ?_
  have herror := h.abs_sub_le
  have hsizes : ∑ r ∈ Finset.range plan.vertical.tapCount, |(plan.vertical.weight y r c : ℚ)| =
      (∑ r ∈ Finset.range plan.vertical.tapCount, |plan.vertical.weight y r c| : Int) := by
    push_cast
    rfl
  rw [ideal_eq, hsizes]
  generalize dropBits (plan.downSum rows y x c) verticalDrop = d at herror ⊢
  generalize (∑ r ∈ Finset.range plan.vertical.tapCount, plan.vertical.weight y r c *
    plan.acrossSum rows ((plan.vertical.window y).start + r) x c) = e at herror ⊢
  generalize (∑ r ∈ Finset.range plan.vertical.tapCount, |plan.vertical.weight y r c|) = w
    at herror ⊢
  have hrational : |2 ^ 30 * (d : ℚ) - e| ≤ 2 ^ 29 + 64 * (w : ℚ) := by exact_mod_cast herror
  have hscaled : (d : ℚ) - e / 2 ^ 30 = (2 ^ 30 * d - e) / 2 ^ 30 := by field_simp
  calc |(d : ℚ) - e / 2 ^ 30| = |2 ^ 30 * (d : ℚ) - e| / 2 ^ 30 := by
        rw [hscaled, abs_div, abs_of_pos (show (0 : ℚ) < 2 ^ 30 by positivity)]
    _ ≤ (2 ^ 29 + 64 * (w : ℚ)) / 2 ^ 30 := by gcongr
    _ = 1 / 2 + (w : ℚ) / 2 ^ 24 := by ring

end Resampling

namespace Chain

variable {α σ : Type} [Analytic α] {below : Chain α σ} {plan : Resampling}

/-- Whatever a stage was asked before, each sample that it writes differs from the exact
convolution, moved into the range of samples, by at most a half and a 512th of the sizes of the
vertical weights, which are words with 15 fractional bits. -/
theorem copy_accurate (hplan : below.Resamples plan) {s₀ : below.State} {rows : Nat → Bytes}
    (hsteady : below.source.Steady s₀ rows) (asked : List (Request × Bytes)) {q : Request}
    {buffer : Bytes} {reply : Reply (Resampling.State below.State)}
    (hreply : reply = (plan.source below.source).copy q buffer
      ((plan.source below.source).after (.initial s₀) asked))
    (hok : reply.result = .ok ()) {r : Nat} (hr : r < q.region.height.toNat) :
    ∃ row, reply.buffer.slice? (r * q.stride) (plan.format.rowBytes q.region.width) = some row ∧
      ∀ x < q.region.width.toNat, ∀ c < plan.kernel.channels, ∃ v,
        plan.kernel.width.load? row (x * plan.kernel.channels + c) = some v ∧
          (plan.InRange rows (q.region.y.toNat + r) (q.region.x.toNat + x) c →
            |(v : ℚ) - FixedPoint.clamp (plan.ideal rows (q.region.y.toNat + r)
                (q.region.x.toNat + x) c) plan.kernel.width.max| ≤
              1 / 2 + (∑ j ∈ Finset.range plan.vertical.tapCount,
                |(plan.vertical.weight (q.region.y.toNat + r) j c : ℚ)|) / 2 ^ 24) := by
  obtain ⟨row, hslice, hload⟩ :=
    (Takes.resampling hplan).load?_copy hsteady asked hreply hok hr
  exact ⟨row, hslice, fun x hx c hc => ⟨_, hload x hx c hc, fun h => h.abs_convolved_sub_le⟩⟩

/-- The mean of 10 and 201 is written as 106. -/
theorem copy_accurate_grey_pair :
    let img : Image := ⟨⟨1, 2⟩, .grey8, #[10, 201], by decide, by decide⟩
    let below : Chain Float Unit := .base img.source
    let reply := (Stage.averagePair.source below.source).copy ⟨⟨0, 0, 1, 1⟩, 1⟩ #[0] (.initial ())
    below.Takes .averagePair ∧ reply.buffer = #[106] ∧
      Stage.averagePair.tables.ideal img.row 0 0 0 = 211 / 2 ∧
        ∃ row v, reply.buffer.slice? 0 1 = some row ∧ SampleWidth.eight.load? row 0 = some v ∧
          |(v : ℚ) - FixedPoint.clamp (Stage.averagePair.tables.ideal img.row 0 0 0) 255| ≤
            1 / 2 + (∑ j ∈ Finset.range 2,
              |(Stage.averagePair.tables.vertical.weight 0 j 0 : ℚ)|) / 2 ^ 24 := by
  intro img below reply
  have hstage : below.Takes .averagePair := takes_averagePair rfl rfl
  obtain ⟨hplan⟩ := hstage
  have himg : below.source.Serves (fun _ => True) img.row fun _ => False := img.serves
  have hsteady : below.source.Steady () img.row := himg.steady trivial
  obtain ⟨row, hslice, hload⟩ := copy_accurate hplan hsteady [] (rfl : reply = _)
    (by decide +kernel) (r := 0) (by decide)
  obtain ⟨v, hv, hclose⟩ := hload 0 (by decide) 0 (by decide)
  have hrange : Stage.averagePair.tables.InRange img.row 0 0 0 :=
    ⟨by decide +kernel, by decide +kernel, by decide +kernel⟩
  exact ⟨.resampling hplan, by decide +kernel, by decide +kernel, row, v, hslice, hv,
    hclose hrange⟩

end Chain

end Resampler
