import Mathlib.Algebra.BigOperators.Intervals
import Resampler.Proofs.Pixel.Packing
import Resampler.Proofs.Taps.Confined
import Resampler.Stage.Resampling

/-!
The convolution that a resampling stage computes.

The image over which a stage works is taken here as a function from row numbers to
rows of bytes. `across` is a sample of it after the horizontal pass and `convolved`
a sample of the resampled image, both written as sums of samples times weights with
the roundings of the fixed-point arithmetic, and neither knows of windows, requests
or states. The main statements say that the row kernel computes just these sums
wherever the tables fit the rows: `convolveRow?_eq` and `blendRow?_eq`.
-/

namespace Resampler

theorem sumTo?_eq_sum {f : Nat → Option Int} {g : Nat → Int} {n : Nat}
    (h : ∀ j < n, f j = some (g j)) : sumTo? f n = some (∑ j ∈ Finset.range n, g j) := by
  induction n with
  | zero => rfl
  | succ n ih =>
    rw [sumTo?, ih fun j hj => h j (Nat.lt_succ_of_lt hj), h n (Nat.lt_succ_self n),
      Finset.sum_range_succ]
    rfl

theorem TapTable.Confined.getElem?_weights {t : TapTable} (ht : t.Confined) {i j c : Nat}
    (hi : i < t.outputSize) (hj : j < t.tapCount) (hc : c < t.channels) :
    (t.window i).weights[j * t.channels + c]? = some (t.weight i j c) := by
  have hlt : j * t.channels + c < (t.window i).weights.size := by
    rw [ht.size_weights i hi]
    exact RowKernel.place_lt hj hc
  rw [TapTable.weight, Array.getD_eq_getD_getElem?, Array.getElem?_eq_getElem hlt, Option.getD_some]

namespace Resampling

/-- The tables of a plan belong to each other and to the source they were made for. -/
structure Fits (plan : Resampling) : Prop where
  ofFormat?_eq : RowKernel.ofFormat? plan.format = some plan.kernel
  horizontal : plan.horizontal.Confined
  vertical : plan.vertical.Confined
  horizontal_channels : plan.horizontal.channels = plan.kernel.channels
  vertical_channels : plan.vertical.channels = plan.kernel.channels
  width_eq : plan.horizontal.inputSize = plan.sourceSize.width.toNat
  height_eq : plan.vertical.inputSize = plan.sourceSize.height.toNat

variable (plan : Resampling) (rows : Nat → Bytes)

/-- The intermediate sample of channel `c` in column `x`, from row `s` of the source. -/
def across (s x c : Nat) : Int :=
  Word.signed32 (FixedPoint.dropBits
    (∑ j ∈ Finset.range plan.horizontal.tapCount,
      (plan.kernel.sample (rows s) ((plan.horizontal.window x).start + j) c : Int) *
        plan.horizontal.weight x j c)
    FixedPoint.horizontalDrop)

/-- The sample of channel `c` in column `x` and row `y` of the resampled image. -/
def convolved (y x c : Nat) : Nat :=
  FixedPoint.toSample (FixedPoint.dropBits
    (∑ r ∈ Finset.range plan.vertical.tapCount,
      plan.across rows ((plan.vertical.window y).start + r) x c * plan.vertical.weight y r c)
    FixedPoint.verticalDrop) plan.kernel.width.max

/-- The sum of the horizontal pass, before it is rounded. -/
def acrossSum (s x c : Nat) : Int :=
  ∑ j ∈ Finset.range plan.horizontal.tapCount,
    (plan.kernel.sample (rows s) ((plan.horizontal.window x).start + j) c : Int) *
      plan.horizontal.weight x j c

/-- The sum of the vertical pass, before it is rounded. -/
def downSum (y x c : Nat) : Int :=
  ∑ r ∈ Finset.range plan.vertical.tapCount,
    plan.across rows ((plan.vertical.window y).start + r) x c * plan.vertical.weight y r c

theorem across_eq (s x c : Nat) : plan.across rows s x c =
    Word.signed32 (FixedPoint.dropBits (plan.acrossSum rows s x c) FixedPoint.horizontalDrop) := rfl

theorem convolved_eq (y x c : Nat) : plan.convolved rows y x c =
    FixedPoint.toSample (FixedPoint.dropBits (plan.downSum rows y x c) FixedPoint.verticalDrop)
      plan.kernel.width.max := rfl

/-- The intermediate row made from row `s` of the source. -/
def acrossRow (s : Nat) : Array Int :=
  ((List.range (plan.horizontal.outputSize * plan.kernel.channels)).map fun i =>
    plan.across rows s (i / plan.kernel.channels) (i % plan.kernel.channels)).toArray

theorem convolved_le (y x c : Nat) : plan.convolved rows y x c ≤ plan.kernel.width.max := by
  unfold convolved FixedPoint.toSample
  omega

variable {plan rows}

theorem getElem?_acrossRow {s x c : Nat} (hx : x < plan.horizontal.outputSize)
    (hc : c < plan.kernel.channels) :
    (plan.acrossRow rows s)[x * plan.kernel.channels + c]? = some (plan.across rows s x c) := by
  rw [acrossRow, List.getElem?_toArray, List.getElem?_map,
    List.getElem?_range (RowKernel.place_lt hx hc), Option.map_some, RowKernel.place_div hc,
    RowKernel.place_mod hc]

namespace Fits

variable (hfits : plan.Fits)
include hfits

theorem channels_pos : 0 < plan.kernel.channels :=
  RowKernel.channels_pos_of_ofFormat? hfits.ofFormat?_eq

theorem bytesPerPixel_eq : plan.kernel.bytesPerPixel = plan.format.bytesPerPixel :=
  RowKernel.bytesPerPixel_of_ofFormat? hfits.ofFormat?_eq

theorem convolveSample?_eq {s x c : Nat}
    (hrow : (rows s).size = plan.format.rowBytes plan.sourceSize.width)
    (hx : x < plan.horizontal.outputSize) (hc : c < plan.kernel.channels) :
    plan.kernel.convolveSample? (rows s) (plan.horizontal.window x) c =
      some (plan.across rows s x c) := by
  have htaps : (plan.horizontal.window x).weights.size / plan.kernel.channels =
      plan.horizontal.tapCount := by
    rw [hfits.horizontal.size_weights x hx, hfits.horizontal_channels,
      Nat.mul_div_cancel _ hfits.channels_pos]
  have hpixels : (rows s).size = plan.sourceSize.width.toNat * plan.kernel.bytesPerPixel := by
    rw [hrow, hfits.bytesPerPixel_eq, PixelFormat.rowBytes]
  unfold RowKernel.convolveSample?
  rw [htaps, sumTo?_eq_sum (g := fun j =>
    (plan.kernel.sample (rows s) ((plan.horizontal.window x).start + j) c : Int) *
      plan.horizontal.weight x j c)]
  · rfl
  · intro j hj
    have hin := hfits.horizontal.inside x hx
    rw [hfits.width_eq] at hin
    have hweight := hfits.horizontal.getElem?_weights hx hj (hfits.horizontal_channels ▸ hc)
    rw [hfits.horizontal_channels] at hweight
    rw [RowKernel.load?_eq_sample hpixels (by omega) hc, hweight]
    rfl

theorem convolveRow?_eq {s : Nat}
    (hrow : (rows s).size = plan.format.rowBytes plan.sourceSize.width) :
    plan.kernel.convolveRow? (rows s) plan.horizontal = some (plan.acrossRow rows s) := by
  unfold RowKernel.convolveRow? RowKernel.convolvePixels?
  rw [mapM_eq_pure_map (g := fun i =>
    plan.across rows s (i / plan.kernel.channels) (i % plan.kernel.channels))]
  · rfl
  · intro i hi
    have hx := RowKernel.div_lt_of_lt_mul (List.mem_range.mp hi)
    rw [TapTable.taps?_eq_window hx, Option.bind_eq_bind, Option.bind_some]
    exact hfits.convolveSample?_eq hrow hx (Nat.mod_lt _ hfits.channels_pos)

/-- The row kernel's samples are those of the convolution, given the intermediate rows of the
window. -/
theorem blendSample?_eq {lines : Array (Array Int)} {y x c : Nat}
    (hsize : lines.size = plan.vertical.tapCount)
    (hlines : ∀ r < plan.vertical.tapCount,
      lines[r]? = some (plan.acrossRow rows ((plan.vertical.window y).start + r)))
    (hy : y < plan.vertical.outputSize) (hx : x < plan.horizontal.outputSize)
    (hc : c < plan.kernel.channels) :
    plan.kernel.blendSample? lines (plan.vertical.window y).weights x c =
      some (plan.convolved rows y x c) := by
  have htaps : min lines.size ((plan.vertical.window y).weights.size / plan.kernel.channels) =
      plan.vertical.tapCount := by
    rw [hfits.vertical.size_weights y hy, hfits.vertical_channels,
      Nat.mul_div_cancel _ hfits.channels_pos, hsize, Nat.min_self]
  unfold RowKernel.blendSample?
  rw [htaps, sumTo?_eq_sum (g := fun r =>
    plan.across rows ((plan.vertical.window y).start + r) x c * plan.vertical.weight y r c)]
  · rfl
  · intro r hr
    have hweight := hfits.vertical.getElem?_weights hy hr (hfits.vertical_channels ▸ hc)
    rw [hfits.vertical_channels] at hweight
    rw [hlines r hr, hweight, Option.bind_eq_bind, Option.bind_some,
      getElem?_acrossRow hx hc]
    rfl

theorem blendRow?_eq {lines : Array (Array Int)} {y ox ow : Nat}
    (hsize : lines.size = plan.vertical.tapCount)
    (hlines : ∀ r < plan.vertical.tapCount,
      lines[r]? = some (plan.acrossRow rows ((plan.vertical.window y).start + r)))
    (hy : y < plan.vertical.outputSize) (hx : ox + ow ≤ plan.horizontal.outputSize) :
    plan.kernel.blendRow? lines (plan.vertical.window y).weights ox ow =
      some (plan.kernel.pixels (plan.convolved rows y) ox ow) := by
  have hroom : ¬(Array.replicate (ow * plan.kernel.bytesPerPixel) (0 : UInt8)).size <
      ow * plan.kernel.bytesPerPixel := by simp
  unfold RowKernel.blendRow? RowKernel.blendInto?
  rw [if_neg hroom, mapM_eq_pure_map (g := fun i => plan.convolved rows y
    (ox + i / plan.kernel.channels) (i % plan.kernel.channels))]
  · simp only [Option.pure_def, Option.bind_eq_bind, Option.bind_some]
    rw [SampleWidth.storeFrom?_eq_blit? _ _ _ _ (by simp), Nat.zero_mul, Bytes.blit?_zero]
    · rfl
    · simp [RowKernel.bytesPerPixel, Nat.mul_assoc]
  · intro i hi
    have hlt := RowKernel.div_lt_of_lt_mul (List.mem_range.mp hi)
    exact hfits.blendSample?_eq hsize hlines hy (by omega) (Nat.mod_lt _ hfits.channels_pos)

end Fits

end Resampling

end Resampler
