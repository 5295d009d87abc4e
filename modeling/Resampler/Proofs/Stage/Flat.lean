import Resampler.Proofs.Stage.Sampled
import Resampler.Proofs.Taps.Bounded

/-!
Flat areas.

Weights that sum to one leave a value alone that all samples of a window have, negative weights
and roundings notwithstanding: the first sum is a multiple of what the horizontal pass
drops, the second one of what the vertical pass drops. Sharpening leaves such a sample alone as
well, since the blur does and the sample itself is in the window. So every stage makes of an image
of one color an image of that color, and so does every chain of stages.
-/

namespace Resampler

open Binary64

namespace TapTable

theorem Balanced.tapCount_pos {t : TapTable} (h : t.Balanced) {i c : Nat} (hi : i < t.outputSize)
    (hc : c < t.channels) : 0 < t.tapCount := by
  rw [Nat.pos_iff_ne_zero]
  intro hzero
  have hsum := h i hi c hc
  rw [hzero, Finset.sum_range_zero] at hsum
  cases hsum

/-- A value that all samples of a window have comes out of the sum times one. -/
theorem Balanced.sum_mul {t : TapTable} (h : t.Balanced) {i c : Nat} (hi : i < t.outputSize)
    (hc : c < t.channels) {f : Nat → Int} {v : Int} (hf : ∀ j < t.tapCount, f j = v) :
    ∑ j ∈ Finset.range t.tapCount, f j * t.weight i j c = v * FixedPoint.one := by
  have hsum := h.sum_add_mul hi hc (f := fun _ => 0) fun j hj => (hf j hj).trans (Int.zero_add v).symm
  rwa [Finset.sum_eq_zero fun j _ => Int.zero_mul _, Int.zero_add] at hsum

end TapTable

namespace Resampling

variable {plan : Resampling} {rows : Nat → Bytes} {y x c v : Nat}

/-- All samples of channel `c` that the sample in column `x` and row `y` is made of are `v`. -/
def FlatAt (plan : Resampling) (rows : Nat → Bytes) (y x c v : Nat) : Prop :=
  ∀ s, plan.vertical.Covers y s → ∀ i, plan.horizontal.Covers x i →
    plan.kernel.width.load? (rows s) (i * plan.kernel.channels + c) = some v

/-- No sum of weights of a stage is more than a 32-bit word holds. In tables that were made, the
sums are then one. -/
def SumsFit (plan : Resampling) : Prop := plan.horizontal.SumsFit ∧ plan.vertical.SumsFit

instance (plan : Resampling) : Decidable plan.SumsFit := inferInstanceAs (Decidable (_ ∧ _))

theorem FlatAt.sample_eq (h : plan.FlatAt rows y x c v) {s i : Nat}
    (hs : plan.vertical.Covers y s) (hi : plan.horizontal.Covers x i) :
    plan.kernel.sample (rows s) i c = v := by
  exact RowKernel.sample_of_load? (h s hs i hi)

section Balanced

variable (hfits : plan.Fits) (hhorizontal : plan.horizontal.Balanced)
  (hvertical : plan.vertical.Balanced) (hy : y < plan.vertical.outputSize)
  (hx : x < plan.horizontal.outputSize) (hc : c < plan.kernel.channels)
include hfits hhorizontal hx hc

/-- The horizontal pass keeps the bits that it has room for. -/
theorem across_of_flat {s : Nat} (hv : v ≤ 65535)
    (h : ∀ i, plan.horizontal.Covers x i → plan.kernel.sample (rows s) i c = v) :
    plan.across rows s x c = v * 2 ^ 8 := by
  have hsum : plan.acrossSum rows s x c = v * FixedPoint.one :=
    hhorizontal.sum_mul hx (hfits.horizontal_channels ▸ hc) fun j hj => by
      rw [h _ (plan.horizontal.covers_tap x hj)]
  rw [across_eq, hsum]
  exact FixedPoint.dropBits_horizontal hv

include hvertical hy

/-- A flat window gives the value that its samples have. -/
theorem convolved_of_flat (h : plan.FlatAt rows y x c v) : plan.convolved rows y x c = v := by
  have hcv : c < plan.vertical.channels := hfits.vertical_channels ▸ hc
  have hch : c < plan.horizontal.channels := hfits.horizontal_channels ▸ hc
  have hdown := hvertical.tapCount_pos hy hcv
  have hright := hhorizontal.tapCount_pos hx hch
  have hmax : v ≤ plan.kernel.width.max := SampleWidth.load?_le
    (h (plan.vertical.window y).start ⟨le_rfl, Nat.lt_add_of_pos_right hdown⟩
      (plan.horizontal.window x).start ⟨le_rfl, Nat.lt_add_of_pos_right hright⟩)
  have hword := plan.kernel.width.max_le
  have hsum : plan.downSum rows y x c = (v * 2 ^ 8 : Int) * FixedPoint.one :=
    hvertical.sum_mul hy hcv fun r hr => by
      refine across_of_flat hfits hhorizontal hx hc (by omega) fun i hi => ?_
      exact h.sample_eq (plan.vertical.covers_tap y hr) hi
  rw [convolved_eq, hsum]
  exact FixedPoint.dropBits_vertical hmax hword

end Balanced

end Resampling

namespace RowKernel

/-- Every pixel of the rows has the samples `v`. -/
def Constant (k : RowKernel) (v : Nat → Nat) (size : Size) (rows : Nat → Bytes) : Prop :=
  ∀ y < size.height.toNat, rows y = k.pixels (fun _ => v) 0 size.width.toNat

theorem sample_pixels {k : RowKernel} {f : Nat → Nat → Nat} {x c n : Nat} (hx : x < n)
    (hc : c < k.channels) (hmax : f x c ≤ k.width.max) :
    k.sample (k.pixels f 0 n) x c = f x c := by
  have hload : k.width.load? (k.pixels f 0 n) (x * k.channels + c) = some (f (0 + x) c) :=
    load?_pixels hx hc (by rwa [Nat.zero_add])
  rw [sample, hload, Option.getD_some, Nat.zero_add]

end RowKernel

namespace Sharpening

variable {α σ : Type} {plan : Sharpening α} {below : Source σ} {rows : Nat → Bytes}
  {y x c v : Nat}

/-- A sample that has its own value all around is left alone. -/
theorem Seated.sharpened_of_flat (hseat : plan.Seated below)
    (hcentered : plan.blur.horizontal.Centered) (hhorizontal : plan.blur.horizontal.Balanced)
    (hvertical : plan.blur.vertical.Balanced) (hy : y < plan.blur.size.height.toNat)
    (hx : x < plan.blur.size.width.toNat) (hc : c < plan.blur.kernel.channels)
    (hrow : (rows y).size = plan.blur.format.rowBytes plan.blur.sourceSize.width)
    (h : plan.blur.FlatAt rows y x c v) : plan.sharpened rows y x c = v := by
  have hfits := hseat.blur.fits
  have hlow := Nat.lt_of_lt_of_le hy plan.blur.height_le
  have hright := Nat.lt_of_lt_of_le hx plan.blur.width_le
  have hself : plan.blur.kernel.sample (rows y) x c = v :=
    h.sample_eq (hseat.centered y hlow) (hcentered x hright)
  have hblurred : plan.blur.kernel.sample (plan.blur.picture rows y) x c = v := by
    rw [Resampling.picture, RowKernel.sample_pixels hx hc (plan.blur.convolved_le rows y x c)]
    exact Resampling.convolved_of_flat hfits hhorizontal hvertical hlow hright hc h
  have hsharp : (rows y).size = plan.blur.size.width.toNat * plan.blur.kernel.bytesPerPixel := by
    rw [hrow, hseat.size_eq, hfits.bytesPerPixel_eq, PixelFormat.rowBytes]
  have hsize : (plan.blur.picture rows y).size =
      plan.blur.size.width.toNat * plan.blur.kernel.bytesPerPixel := RowKernel.size_pixels ..
  rw [sharpened, RowKernel.sharpSample_of_eq hsharp hsize hx hc (hblurred.trans hself.symm), hself]

end Sharpening

namespace Chain

variable {α σ : Type} [Analytic α] {below : Chain α σ} {stage : Stage α}

theorem Takes.sample_of_flat (hstage : below.Takes stage) (hsums : stage.tables.SumsFit)
    {rows : Nat → Bytes} {y x c v : Nat} (hy : y < stage.tables.size.height.toNat)
    (hx : x < stage.tables.size.width.toNat) (hc : c < stage.tables.kernel.channels)
    (hrow : ∀ plan, stage = .sharpening plan →
      (rows y).size = plan.blur.format.rowBytes plan.blur.sourceSize.width)
    (h : stage.tables.FlatAt rows y x c v) : stage.sample rows y x c = v := by
  have hseat := hstage.seated
  have hhorizontal := hstage.made.1.sumsFit_iff.mp hsums.1
  have hvertical := hstage.made.2.sumsFit_iff.mp hsums.2
  cases stage with
  | resampling plan =>
    exact Resampling.convolved_of_flat hseat.tables.fits hhorizontal hvertical
      (Nat.lt_of_lt_of_le hy plan.height_le) (Nat.lt_of_lt_of_le hx plan.width_le) hc h
  | sharpening plan =>
    exact Sharpening.Seated.sharpened_of_flat hseat hstage.centered.1 hhorizontal hvertical hy hx
      hc (hrow plan rfl) h

/-- A stage makes of rows of one color rows of that color. -/
theorem Takes.constant_picture (hstage : below.Takes stage) (hsums : stage.tables.SumsFit)
    {rows : Nat → Bytes} {v : Nat → Nat}
    (hmax : ∀ c < stage.tables.kernel.channels, v c ≤ stage.tables.kernel.width.max)
    (hrows : stage.tables.kernel.Constant v below.size rows) :
    stage.tables.kernel.Constant v stage.tables.size (stage.picture rows) := by
  have hseat := hstage.seated
  have hfits := hseat.tables.fits
  intro y hy
  have hlow := Nat.lt_of_lt_of_le hy stage.tables.height_le
  rw [Stage.picture_eq]
  refine RowKernel.pixels_congr fun x hx c hc => ?_
  rw [Nat.zero_add]
  have hright := Nat.lt_of_lt_of_le hx stage.tables.width_le
  apply hstage.sample_of_flat hsums hy hx hc
  · rintro plan rfl
    have hsize : below.size = plan.blur.sourceSize := hseat.tables.size_eq
    have hsame : plan.blur.size = plan.blur.sourceSize := Sharpening.Seated.size_eq hseat
    rw [PixelFormat.rowBytes, ← hsize]
    refine (congrArg Array.size (hrows y ?_)).trans ?_
    · rw [hsize, ← hsame]
      exact hy
    · rw [RowKernel.size_pixels, hfits.bytesPerPixel_eq]
      rfl
  · rintro s ⟨-, hs⟩ i ⟨-, hi⟩
    have hinside := hfits.horizontal.inside x hright
    rw [hfits.width_eq, ← hseat.tables.size_eq] at hinside
    rw [hrows s (Nat.lt_of_lt_of_le hs (hseat.window_le hy))]
    exact RowKernel.load?_pixels (Nat.lt_of_lt_of_le hi hinside) hc (hmax c hc)

/-- Where all source samples in the window of a sample are equal, the answer to a request has that
value, and so has the source itself if the stage sharpens. -/
theorem Takes.flat_copy (hstage : below.Takes stage) (hsums : stage.tables.SumsFit)
    {s₀ : below.State} {rows : Nat → Bytes} (hsteady : below.source.Steady s₀ rows)
    (asked : List (Request × Bytes)) {q : Request} {buffer : Bytes}
    {reply : Reply (Resampling.State below.State)}
    (hreply : reply = (stage.source below.source).copy q buffer
      ((stage.source below.source).after (.initial s₀) asked))
    (hok : reply.result = .ok ()) (r : Nat) (hr : r < q.region.height.toNat) :
    ∃ row, reply.buffer.slice? (r * q.stride) (stage.tables.format.rowBytes q.region.width) =
        some row ∧
      ∀ x < q.region.width.toNat, ∀ c < stage.tables.kernel.channels, ∀ v,
        stage.tables.FlatAt rows (q.region.y.toNat + r) (q.region.x.toNat + x) c v →
          stage.tables.kernel.width.load? row (x * stage.tables.kernel.channels + c) = some v ∧
            ∀ plan, stage = .sharpening plan →
              stage.tables.kernel.width.load? (rows (q.region.y.toNat + r))
                ((q.region.x.toNat + x) * stage.tables.kernel.channels + c) = some v := by
  have hq := Stage.check_of_ok (hreply ▸ hok)
  obtain ⟨hlow, hright, -⟩ := Request.bounds_of_check hq hr
  obtain ⟨row, hslice, hload⟩ := hstage.load?_copy hsteady asked hreply hok hr
  refine ⟨row, hslice, fun x hx c hc v hflat => ?_⟩
  have hcolumn : q.region.x.toNat + x < stage.tables.size.width.toNat := by omega
  constructor
  · rw [hload x hx c hc, hstage.sample_of_flat hsums hlow hcolumn hc
      (fun plan => hstage.size_row_of_copy hsteady asked hreply hok hr) hflat]
  · rintro plan rfl
    obtain ⟨hacross, hdown⟩ := hstage.centered
    exact hflat _ (hdown _ (Nat.lt_of_lt_of_le hlow plan.blur.height_le)) _
      (hacross _ (Nat.lt_of_lt_of_le hcolumn plan.blur.width_le))

end Chain

/-- No sum of weights of a resampling stage is more than a 32-bit word holds. Nothing is asked of a
sharpening stage. -/
def Stage.SumsFit {α : Type} : Stage α → Prop
  | resampling plan => plan.SumsFit
  | sharpening _ => True

namespace Chain

/-- No sum of weights of the resampling stages in the chain is more than a 32-bit word holds. -/
def SumsFit {α σ : Type} : Chain α σ → Prop
  | base _ => True
  | resample below plan => below.SumsFit ∧ plan.SumsFit
  | sharpen below _ => below.SumsFit

section

variable {α σ : Type} [Analytic α] (hblurs : TapTable.BlursFit α) {below : Chain α σ}
  {stage : Stage α}
include hblurs

/-- The tables of a sharpening stage have sums that fit whatever the radius is. -/
theorem Takes.sumsFit (hstage : below.Takes stage) (hsums : stage.SumsFit) :
    stage.tables.SumsFit := by
  cases hstage with
  | resampling => exact hsums
  | sharpening h =>
    obtain ⟨-, hhorizontal, hvertical⟩ := tables_of_sharpened h
    exact ⟨hblurs (UInt32.toNat_lt _) hhorizontal, hblurs (UInt32.toNat_lt _) hvertical⟩

/-- A chain makes of an image of one color an image of that color. -/
theorem Built.constant_picture {c : Chain α σ} (hc : c.Built) (hsums : c.SumsFit)
    {k : RowKernel} (hk : RowKernel.ofFormat? c.bottom.format = some k) {rows : Nat → Bytes}
    {v : Nat → Nat} (hmax : ∀ i < k.channels, v i ≤ k.width.max)
    (hrows : k.Constant v c.bottom.size rows) : k.Constant v c.size (c.picture rows) := by
  induction hc with
  | base src => exact hrows
  | resample hbelow hplan ih =>
    have hstage := Takes.resampling hplan
    have hconstant := ih hsums.1 hk hrows
    obtain rfl := hstage.kernel_eq hbelow hk
    exact hstage.constant_picture hsums.2 hmax hconstant
  | sharpen hbelow hplan ih =>
    have hstage := Takes.sharpening hplan
    have hconstant := ih hsums hk hrows
    obtain rfl := hstage.kernel_eq hbelow hk
    exact hstage.constant_picture (hstage.sumsFit hblurs trivial) hmax hconstant

/-- Every request for a part of an image of one color is answered with pixels of that color. -/
theorem Takes.copy_constant (hstage : below.Takes stage) (hsums : stage.SumsFit)
    (hbelow : below.Built) (hfit : below.SumsFit) {img : Image} (hbottom : below.bottom = img.source) {v : Nat → Nat}
    (hmax : ∀ c < stage.tables.kernel.channels, v c ≤ stage.tables.kernel.width.max)
    (hconstant : stage.tables.kernel.Constant v img.size img.row) (s : σ)
    (asked : List (Request × Bytes)) {q : Request} {buffer : Bytes} {n : Nat}
    (hq : q.check stage.tables.size stage.tables.format buffer.size = .ok n)
    {reply : Reply (Resampling.State below.State)}
    (hreply : reply = (stage.source below.source).copy q buffer
      ((stage.source below.source).after (.initial (below.start s)) asked)) :
    reply.result = .ok () ∧ ∀ r < q.region.height.toNat, reply.buffer.slice? (r * q.stride) n =
      some (stage.tables.kernel.pixels (fun _ => v) 0 q.region.width.toNat) := by
  have hseat := hstage.seated
  have himg : below.bottom.Serves (fun _ => True) img.row fun _ => False := hbottom ▸ img.serves
  have hserves := hbelow.serves himg
  have hcoherent := below.coherent_start img.row (I := fun _ => True) (s := s) trivial
  obtain ⟨hok, -⟩ := (hseat.serves hserves.gives).laid_after
    (Resampling.coherent_initial hcoherent) asked
    (by rwa [Stage.size_source, Stage.format_source]) hreply
  refine ⟨hok, fun r hr => ?_⟩
  obtain ⟨hlow, hright, -⟩ := Request.bounds_of_check hq hr
  obtain ⟨-, rfl, -⟩ := Request.check_eq_ok_iff.mp hq
  have hkernel := hstage.ofFormat?_eq
  rw [hbelow.format_eq] at hkernel
  have hbelowconstant := hbelow.constant_picture hblurs hfit hkernel hmax (by
    rw [hbottom]
    exact hconstant)
  have hrow := hstage.constant_picture (hstage.sumsFit hblurs hsums) hmax hbelowconstant _ hlow
  rw [hstage.slice?_copy (hserves.steady hcoherent) asked hreply hok hr, Request.rowsOf, hrow,
    hseat.tables.fits.part_run hright]
  exact congrArg some (RowKernel.pixels_congr fun _ _ _ _ => rfl)

end

end Chain

end Resampler
