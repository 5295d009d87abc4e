import Resampler.Proofs.Convolution
import Resampler.Proofs.FixedPoint

/-!
The convolution in unbounded integers.

The row kernels keep their sums in 64-bit words and the rows between the two passes in
32-bit words. Here both passes are written a second time, over the integers and without any word.
Weights whose sizes sum to less than four leave room in every word: whichever taps of a window
have been added up so far, the sum fits, and so does each sample between the passes. The row
kernels then compute the convolution of the integers, and what they write is that convolution,
rounded twice.
-/

namespace Resampler

namespace Word

/-- The sum of `f 0` to `f (n - 1)` as a signed 64-bit register takes it, one term at a time. -/
def accumulate64 (f : Nat → Int) : Nat → Int
  | 0 => 0
  | n + 1 => signed64 (accumulate64 f n + f n)

/-- A register holds the sum itself if the sums on the way to it fit. -/
theorem accumulate64_eq_sum {f : Nat → Int} {n : Nat}
    (h : ∀ m ≤ n, Fits64 (∑ j ∈ Finset.range m, f j)) :
    accumulate64 f n = ∑ j ∈ Finset.range n, f j := by
  -- on the number of terms; the register has held each sum before this one
  induction n with
  | zero => rfl
  | succ n ih =>
    rw [accumulate64, ih fun m hm => h m (Nat.le_succ_of_le hm), ← Finset.sum_range_succ,
      (h (n + 1) le_rfl).signed64_eq]

theorem accumulate64_of_abs_le {f : Nat → Int} {n : Nat} {b : Int} (hb : b < 2 ^ 63)
    (h : ∀ taps ⊆ Finset.range n, |∑ j ∈ taps, f j| ≤ b) {m : Nat} (hm : m ≤ n) :
    accumulate64 f m = ∑ j ∈ Finset.range m, f j := by
  refine accumulate64_eq_sum fun k hk => ?_
  have hsum := abs_le.mp (h (Finset.range k) (Finset.range_subset_range.mpr (hk.trans hm)))
  constructor <;> omega

end Word

namespace FixedPoint

/-- `acc / 2 ^ shift`, a half going up, in unbounded integers. -/
def dropExactly (acc : Int) (shift : Nat) : Int := (acc + half shift) / 2 ^ shift

/-- Some of the products of values of size `m` at most with weights whose sizes sum to `b` at
most. -/
theorem abs_sum_mul_le {n : Nat} {taps : Finset Nat} (htaps : taps ⊆ Finset.range n)
    {a w : Nat → Int} {m b : Int} (hm : 0 ≤ m) (ha : ∀ j < n, |a j| ≤ m)
    (hw : ∑ j ∈ Finset.range n, |w j| ≤ b) : |∑ j ∈ taps, a j * w j| ≤ m * b := by
  have hterm : ∀ j ∈ taps, |a j * w j| ≤ m * |w j| := by
    intro j hj
    rw [abs_mul]
    exact mul_le_mul_of_nonneg_right (ha j (Finset.mem_range.mp (htaps hj))) (abs_nonneg _)
  calc |∑ j ∈ taps, a j * w j| ≤ ∑ j ∈ taps, |a j * w j| := Finset.abs_sum_le_sum_abs _ _
    _ ≤ ∑ j ∈ taps, m * |w j| := Finset.sum_le_sum hterm
    _ ≤ ∑ j ∈ Finset.range n, m * |w j| :=
        Finset.sum_le_sum_of_subset_of_nonneg htaps fun j _ _ => mul_nonneg hm (abs_nonneg _)
    _ = m * ∑ j ∈ Finset.range n, |w j| := (Finset.mul_sum _ _ _).symm
    _ ≤ m * b := mul_le_mul_of_nonneg_left hw hm

end FixedPoint

namespace TapTable

/-- The sizes of the weights that a window has for a channel sum to less than four. -/
def LightAt (t : TapTable) (i c : Nat) : Prop :=
  ∑ j ∈ Finset.range t.tapCount, |t.weight i j c| < 4 * FixedPoint.one

instance (t : TapTable) (i c : Nat) : Decidable (t.LightAt i c) :=
  inferInstanceAs (Decidable (_ < _))

/-- The sizes of the weights of every window sum to less than four, channel by channel. -/
def Light (t : TapTable) : Prop := ∀ i < t.outputSize, ∀ c < t.channels, t.LightAt i c

instance (t : TapTable) : Decidable t.Light := inferInstanceAs (Decidable (∀ _ < _, _))

theorem LightAt.sum_le {t : TapTable} {i c : Nat} (h : t.LightAt i c) :
    ∑ j ∈ Finset.range t.tapCount, |t.weight i j c| ≤ 2 ^ 17 - 1 := by
  rw [LightAt, FixedPoint.one] at h
  omega

end TapTable

namespace RowKernel

theorem size_splitRows (rowLen : Nat) (window : Array Int) :
    (splitRows rowLen window).size = window.size / rowLen := by
  simp [splitRows]

theorem getElem?_splitRows {rowLen r : Nat} {window : Array Int} (h : r < window.size / rowLen) :
    (splitRows rowLen window)[r]? = some (window.extract (r * rowLen) ((r + 1) * rowLen)) := by
  simp [splitRows, h]

end RowKernel

namespace Resampling

open FixedPoint

variable (plan : Resampling) (rows : Nat → Bytes)

/-- What tap `j` adds to the sum of the horizontal pass. -/
def acrossTerm (s x c j : Nat) : Int :=
  (plan.kernel.sample (rows s) ((plan.horizontal.window x).start + j) c : Int) *
    plan.horizontal.weight x j c

/-- The sample between the passes, in unbounded integers. -/
def acrossExact (s x c : Nat) : Int :=
  dropExactly (∑ j ∈ Finset.range plan.horizontal.tapCount, plan.acrossTerm rows s x c j)
    horizontalDrop

/-- The row between the passes, in unbounded integers. -/
def acrossRowExact (s : Nat) : Array Int :=
  ((List.range (plan.horizontal.outputSize * plan.kernel.channels)).map fun i =>
    plan.acrossExact rows s (i / plan.kernel.channels) (i % plan.kernel.channels)).toArray

/-- What row `r` of the window adds to the sum of the vertical pass. -/
def downTerm (y x c r : Nat) : Int :=
  plan.acrossExact rows ((plan.vertical.window y).start + r) x c * plan.vertical.weight y r c

/-- The sample of the resampled image, in unbounded integers. -/
def convolvedExact (y x c : Nat) : Nat :=
  toSample (dropExactly (∑ r ∈ Finset.range plan.vertical.tapCount, plan.downTerm rows y x c r)
    verticalDrop) plan.kernel.width.max

/-- The lines of one window of the vertical pass, back to back. -/
structure Stacks (line : Nat → Array Int) (window : Array Int) : Prop where
  size_eq : window.size = plan.vertical.tapCount * plan.lineSamples
  line_eq : ∀ r < plan.vertical.tapCount,
    window.extract (r * plan.lineSamples) ((r + 1) * plan.lineSamples) = line r

/-- The words of the horizontal pass have room for its sums, in whatever order the taps are added
up, and for the sample that it makes of them. -/
structure RoomAcross (s x c : Nat) : Prop where
  sum_lt : ∀ taps ⊆ Finset.range plan.horizontal.tapCount,
    |∑ j ∈ taps, plan.acrossTerm rows s x c j| < 2 ^ 34
  register_eq : ∀ n ≤ plan.horizontal.tapCount, Word.accumulate64 (plan.acrossTerm rows s x c) n =
    ∑ j ∈ Finset.range n, plan.acrossTerm rows s x c j
  sample_lt : |plan.acrossExact rows s x c| < 2 ^ 26
  word_eq : Word.signed32 (plan.acrossExact rows s x c) = plan.acrossExact rows s x c

/-- The words of the vertical pass have room for its sums, in whatever order the rows are added
up. -/
structure RoomDown (y x c : Nat) : Prop where
  sum_lt : ∀ taps ⊆ Finset.range plan.vertical.tapCount,
    |∑ r ∈ taps, plan.downTerm rows y x c r| < 2 ^ 43
  register_eq : ∀ n ≤ plan.vertical.tapCount, Word.accumulate64 (plan.downTerm rows y x c) n =
    ∑ r ∈ Finset.range n, plan.downTerm rows y x c r

variable {plan rows} {s y x c : Nat}

section Horizontal

variable (rows s) (hlight : plan.horizontal.LightAt x c)
include hlight

/-- Whichever taps have been added up, the sum is far from the ends of a 64-bit word. -/
theorem abs_sum_acrossTerm_le {taps : Finset Nat}
    (htaps : taps ⊆ Finset.range plan.horizontal.tapCount) :
    |∑ j ∈ taps, plan.acrossTerm rows s x c j| ≤ (2 ^ 16 - 1) * (2 ^ 17 - 1) := by
  refine abs_sum_mul_le htaps (by norm_num) (fun j _ => ?_) hlight.sum_le
  have hsample := (plan.kernel.sample_le (rows s) ((plan.horizontal.window x).start + j) c).trans
    plan.kernel.width.max_le
  rw [Nat.abs_cast]
  omega

theorem abs_acrossExact_le : |plan.acrossExact rows s x c| ≤ 2 ^ 26 - 1 := by
  have hsum := abs_sum_acrossTerm_le rows s hlight subset_rfl
  rw [abs_le] at hsum ⊢
  simp only [acrossExact, dropExactly, half, horizontalDrop, weightBits, guardBits]
  omega

theorem across_eq_acrossExact : plan.across rows s x c = plan.acrossExact rows s x c := by
  have hsum := abs_sum_acrossTerm_le rows s hlight subset_rfl
  have hexact := abs_acrossExact_le rows s hlight
  rw [abs_le] at hsum hexact
  have hdrop : dropBits (plan.acrossSum rows s x c) horizontalDrop =
      plan.acrossExact rows s x c := dropBits_eq (by
    change Word.Fits64 (∑ j ∈ _, plan.acrossTerm rows s x c j + _)
    simp only [Word.Fits64, half, horizontalDrop, weightBits, guardBits]
    omega)
  rw [across_eq, hdrop, Word.signed32_of_fits] <;> omega

theorem roomAcross : plan.RoomAcross rows s x c := by
  have hsum (taps : Finset Nat) (htaps : taps ⊆ Finset.range plan.horizontal.tapCount) :=
    abs_sum_acrossTerm_le rows s hlight htaps
  have hexact := abs_acrossExact_le rows s hlight
  refine ⟨fun taps htaps => (hsum taps htaps).trans_lt (by norm_num), fun n hn => ?_,
    hexact.trans_lt (by norm_num), ?_⟩
  · exact Word.accumulate64_of_abs_le (by norm_num) hsum hn
  · rw [abs_le] at hexact
    exact Word.signed32_of_fits (by omega) (by omega)

end Horizontal

section Vertical

variable (rows) (hhorizontal : plan.horizontal.LightAt x c)
  (hvertical : plan.vertical.LightAt y c)
include hhorizontal hvertical

theorem abs_sum_downTerm_le {taps : Finset Nat}
    (htaps : taps ⊆ Finset.range plan.vertical.tapCount) :
    |∑ r ∈ taps, plan.downTerm rows y x c r| ≤ (2 ^ 26 - 1) * (2 ^ 17 - 1) :=
  abs_sum_mul_le htaps (by norm_num) (fun _ _ => abs_acrossExact_le rows _ hhorizontal)
    hvertical.sum_le

/-- With light weights the resampled image is the convolution of the integers. -/
theorem convolved_eq_convolvedExact :
    plan.convolved rows y x c = plan.convolvedExact rows y x c := by
  have hdown : plan.downSum rows y x c =
      ∑ r ∈ Finset.range plan.vertical.tapCount, plan.downTerm rows y x c r :=
    Finset.sum_congr rfl fun r _ => by rw [downTerm, across_eq_acrossExact rows _ hhorizontal]
  have hsum := abs_sum_downTerm_le rows hhorizontal hvertical subset_rfl
  rw [abs_le] at hsum
  rw [convolved_eq, convolvedExact, hdown, dropBits_eq, dropExactly]
  simp only [Word.Fits64, half, verticalDrop, weightBits, guardBits]
  omega

theorem roomDown : plan.RoomDown rows y x c := by
  have hsum (taps : Finset Nat) (htaps : taps ⊆ Finset.range plan.vertical.tapCount) :=
    abs_sum_downTerm_le rows hhorizontal hvertical htaps
  exact ⟨fun taps htaps => (hsum taps htaps).trans_lt (by norm_num),
    fun n hn => Word.accumulate64_of_abs_le (by norm_num) hsum hn⟩

end Vertical

namespace Fits

variable (hfits : plan.Fits)
include hfits

/-- The horizontal pass over a row of the source, written where there is room for it. -/
theorem convolveInto?_eq {dst : Array Int}
    (hrow : (rows s).size = plan.format.rowBytes plan.sourceSize.width)
    (hdst : dst.size = plan.lineSamples) :
    plan.kernel.convolveInto? (rows s) plan.horizontal dst = some (plan.acrossRow rows s) := by
  have hpixels : min (dst.size / plan.kernel.channels) plan.horizontal.outputSize =
      plan.horizontal.outputSize := by
    rw [hdst, lineSamples, Nat.mul_div_cancel _ hfits.channels_pos, Nat.min_self]
  have hconvolved := hfits.convolveRow?_eq hrow
  rw [RowKernel.convolveRow?] at hconvolved
  have hsize : (plan.acrossRow rows s).size = dst.size := by
    rw [hdst, acrossRow, lineSamples]
    simp
  rw [RowKernel.convolveInto?, hpixels, hconvolved, Option.bind_eq_bind, Option.bind_some, hsize]
  simp

/-- The vertical pass over the rows of a window that lie back to back. -/
theorem blendWindow?_eq {window : Array Int} {ox ow : Nat} {dst : Bytes}
    (hwindow : plan.Stacks (fun r => plan.acrossRow rows ((plan.vertical.window y).start + r))
      window)
    (hy : y < plan.vertical.outputSize) (hx : ox + ow ≤ plan.horizontal.outputSize)
    (hdst : ow * plan.kernel.bytesPerPixel ≤ dst.size) :
    plan.kernel.blendWindow? window plan.lineSamples (plan.vertical.window y).weights ox ow dst =
      dst.blit? 0 (plan.kernel.pixels (plan.convolved rows y) ox ow) := by
  rw [RowKernel.blendWindow?]
  -- without columns nothing is written, and the window is not cut into lines
  by_cases hnone : ow = 0
  · subst hnone
    rw [if_pos rfl, Bytes.blit?, if_pos (by simp)]
    simp [RowKernel.pixels, SampleWidth.pack]
  · have hlen : 0 < plan.lineSamples := Nat.mul_pos (by omega) hfits.channels_pos
    have hcount : window.size / plan.lineSamples = plan.vertical.tapCount := by
      rw [hwindow.size_eq, Nat.mul_div_cancel _ hlen]
    rw [if_neg hnone, if_neg hlen.ne', RowKernel.blendInto?, if_neg (by omega),
      mapM_eq_pure_map (g := fun i => plan.convolved rows y (ox + i / plan.kernel.channels)
        (i % plan.kernel.channels))]
    · simp only [Option.pure_def, Option.bind_eq_bind, Option.bind_some]
      rw [SampleWidth.storeFrom?_eq_blit? _ _ _ _ (by simp), Nat.zero_mul]
      rfl
    · intro i hi
      have hlt := RowKernel.div_lt_of_lt_mul (List.mem_range.mp hi)
      refine hfits.blendSample?_eq ?_ (fun r hr => ?_) hy (by omega)
        (Nat.mod_lt _ hfits.channels_pos)
      · rw [RowKernel.size_splitRows, hcount]
      · rw [RowKernel.getElem?_splitRows (by omega), hwindow.line_eq r hr]

theorem acrossRow_eq_acrossRowExact (hhorizontal : plan.horizontal.Light) (s : Nat) :
    plan.acrossRow rows s = plan.acrossRowExact rows s := by
  rw [acrossRow, acrossRowExact]
  congr 1
  refine List.map_congr_left fun i hi => ?_
  have hx := RowKernel.div_lt_of_lt_mul (List.mem_range.mp hi)
  refine across_eq_acrossExact rows s (hhorizontal _ hx _ ?_)
  rw [hfits.horizontal_channels]
  exact Nat.mod_lt _ hfits.channels_pos

/-- With weights whose sizes sum to less than four, however many taps there are, no word of the two
passes is too short. The horizontal pass over the rows of a window followed by the vertical pass
makes the convolution of the integers, be it of a whole row or of some of its pixels. -/
theorem passes_exact (hhorizontal : plan.horizontal.Light) (hvertical : plan.vertical.Light)
    (rows : Nat → Bytes) :
    (∀ s, ∀ x < plan.horizontal.outputSize, ∀ c < plan.kernel.channels,
      plan.RoomAcross rows s x c) ∧
    (∀ y < plan.vertical.outputSize, ∀ x < plan.horizontal.outputSize, ∀ c < plan.kernel.channels,
      plan.RoomDown rows y x c) ∧
    (∀ s, (rows s).size = plan.format.rowBytes plan.sourceSize.width →
      ∀ dst : Array Int, dst.size = plan.lineSamples →
        plan.kernel.convolveInto? (rows s) plan.horizontal dst =
          some (plan.acrossRowExact rows s)) ∧
    ∀ y < plan.vertical.outputSize, ∀ window,
      plan.Stacks (fun r => plan.acrossRowExact rows ((plan.vertical.window y).start + r)) window →
        ∀ ox ow (dst : Bytes), ox + ow ≤ plan.horizontal.outputSize →
          ow * plan.kernel.bytesPerPixel ≤ dst.size →
            ∃ out, plan.kernel.blendWindow? window plan.lineSamples
                (plan.vertical.window y).weights ox ow dst = some out ∧
              dst.blit? 0 (plan.kernel.pixels (plan.convolvedExact rows y) ox ow) = some out := by
  have hacross {x c : Nat} (hx : x < plan.horizontal.outputSize) (hc : c < plan.kernel.channels) :
      plan.horizontal.LightAt x c := hhorizontal x hx c (hfits.horizontal_channels ▸ hc)
  have hdown {y c : Nat} (hy : y < plan.vertical.outputSize) (hc : c < plan.kernel.channels) :
      plan.vertical.LightAt y c := hvertical y hy c (hfits.vertical_channels ▸ hc)
  refine ⟨fun s x hx c hc => roomAcross rows s (hacross hx hc),
    fun y hy x hx c hc => roomDown rows (hacross hx hc) (hdown hy hc), fun s hrow dst hdst => ?_,
    fun y hy window hwindow ox ow dst hx hdst => ?_⟩
  · rw [hfits.convolveInto?_eq hrow hdst, hfits.acrossRow_eq_acrossRowExact hhorizontal]
  · have hpixels : plan.kernel.pixels (plan.convolved rows y) ox ow =
        plan.kernel.pixels (plan.convolvedExact rows y) ox ow :=
      RowKernel.pixels_congr fun j hj c hc =>
        convolved_eq_convolvedExact rows (hacross (by omega) hc) (hdown hy hc)
    have hstacks : plan.Stacks
        (fun r => plan.acrossRow rows ((plan.vertical.window y).start + r)) window :=
      ⟨hwindow.size_eq, fun r hr => by
        rw [hwindow.line_eq r hr, hfits.acrossRow_eq_acrossRowExact hhorizontal]⟩
    have hblend := hfits.blendWindow?_eq hstacks hy hx hdst
    obtain ⟨out, hout⟩ := Option.isSome_iff_exists.mp (Bytes.blit?_isSome_iff.mpr
      (show 0 + (plan.kernel.pixels (plan.convolvedExact rows y) ox ow).size ≤ dst.size by
        rwa [Nat.zero_add, RowKernel.size_pixels]))
    refine ⟨out, ?_, hout⟩
    rw [hblend, hpixels, hout]

end Fits

/-- Makes the middle pixel of three stand out in 16 bits, and takes the second of two rows back a
little. -/
def sharpTriple : Resampling where
  sourceSize := ⟨3, 2⟩
  format := .grey16
  kernel := ⟨1, .sixteen, .none⟩
  horizontal := ⟨3, 3, 1, #[⟨0, #[-20000, 72768, -20000]⟩]⟩
  vertical := ⟨2, 2, 1, #[⟨0, #[49152, -16384]⟩]⟩
  keepsSource := false

theorem fits_sharpTriple : sharpTriple.Fits :=
  ⟨rfl, ⟨by decide, by decide⟩, ⟨by decide, by decide⟩, rfl, rfl, rfl, rfl⟩

/-- Rows of 30000, 40000 and 30000. The middle sum does not fit into 32 bits. -/
theorem passes_exact_sharpTriple :
    let row : Bytes := #[48, 117, 64, 156, 48, 117]
    sharpTriple.Fits ∧ sharpTriple.horizontal.Light ∧ sharpTriple.vertical.Light ∧
      sharpTriple.kernel.convolveInto? row sharpTriple.horizontal #[0] = some #[13365000] ∧
      sharpTriple.RoomAcross (fun _ => row) 1 0 0 ∧ sharpTriple.RoomDown (fun _ => row) 0 0 0 ∧
      ∃ out, sharpTriple.kernel.blendWindow? #[13365000, 13365000] 1 #[49152, -16384] 0 1
          #[0, 0, 7] = some out ∧ out = #[239, 203, 7] := by
  intro row
  have hfits := fits_sharpTriple
  have hhorizontal : sharpTriple.horizontal.Light := by decide
  have hvertical : sharpTriple.vertical.Light := by decide
  obtain ⟨hacross, hdown, hrow, hwindow⟩ :=
    hfits.passes_exact hhorizontal hvertical fun _ => row
  have hline : sharpTriple.acrossRowExact (fun _ => row) 0 = #[13365000] := by decide
  have hstacks : sharpTriple.Stacks (fun _ => sharpTriple.acrossRowExact (fun _ => row) 0)
      #[13365000, 13365000] := by
    rw [hline]
    exact ⟨rfl, by decide⟩
  obtain ⟨out, hblend, hout⟩ := hwindow 0 (by decide) _ hstacks 0 1 #[0, 0, 7] (by decide)
    (by decide)
  refine ⟨hfits, hhorizontal, hvertical, ?_, hacross 1 0 (by decide) 0 (by decide),
    hdown 0 (by decide) 0 (by decide) 0 (by decide), out, hblend, ?_⟩
  · rw [← hline]
    exact hrow 0 rfl #[0] rfl
  · have hpixels : Bytes.blit? #[0, 0, 7] 0 (sharpTriple.kernel.pixels
        (sharpTriple.convolvedExact (fun _ => row) 0) 0 1) = some #[239, 203, 7] := by decide
    rw [hpixels] at hout
    exact (Option.some.inj hout).symm

end Resampling

end Resampler
