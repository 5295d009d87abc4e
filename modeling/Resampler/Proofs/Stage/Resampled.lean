import Resampler.Proofs.Image
import Resampler.Proofs.Setup.Stages
import Resampler.Proofs.Stage.Window
import Resampler.Scalar.Rational

/-!
What a resampling stage serves.

A stage on a source that gives rows serves the resampled image, in every state that
requests and failures can leave it in. Whatever way the stage was put on its source,
its tables are ones that were made for an axis, and nothing more is needed: the
last theorem says of every answered request that it holds the convolution of the
source's samples, and does not speak of the requests before it at all.
-/

namespace Resampler

namespace Resampling

variable {σ : Type} {plan : Resampling} {rows : Nat → Bytes} {below : Source σ} {I : σ → Prop}
  {faults : Failure → Prop}

/-- Row `y` of the resampled image. -/
def picture (plan : Resampling) (rows : Nat → Bytes) (y : Nat) : Bytes :=
  plan.kernel.pixels (plan.convolved rows y) 0 plan.size.width.toNat

@[simp] theorem size_source (plan : Resampling) (below : Source σ) :
    (plan.source below).size = plan.size := rfl

@[simp] theorem format_source (plan : Resampling) (below : Source σ) :
    (plan.source below).format = plan.format := rfl

theorem width_le (plan : Resampling) : plan.size.width.toNat ≤ plan.horizontal.outputSize := by
  rw [size, UInt32.toNat_ofNat']
  exact Nat.mod_le _ _

theorem height_le (plan : Resampling) : plan.size.height.toNat ≤ plan.vertical.outputSize := by
  rw [size, UInt32.toNat_ofNat']
  exact Nat.mod_le _ _

theorem Fits.size_run (hfits : plan.Fits) (f : Nat → Nat → Nat) (x : Nat) (width : UInt32) :
    (plan.kernel.pixels f x width.toNat).size = plan.format.rowBytes width := by
  rw [RowKernel.size_pixels, hfits.bytesPerPixel_eq, PixelFormat.rowBytes]

/-- A part of a run of pixels, cut out by bytes, is a run of pixels. -/
theorem Fits.part_run (hfits : plan.Fits) {f : Nat → Nat → Nat} {x n : Nat} {width : UInt32}
    (hx : x + width.toNat ≤ n) :
    (plan.kernel.pixels f 0 n).part (x * plan.format.bytesPerPixel) (plan.format.rowBytes width) =
      plan.kernel.pixels f x width.toNat := by
  rw [PixelFormat.rowBytes, ← hfits.bytesPerPixel_eq, RowKernel.part_pixels hfits.channels_pos hx,
    Nat.zero_add]

/-- The stage serves the resampled image and fails only where its source does. -/
theorem Stands.serves (hst : plan.Stands below I rows faults) :
    (plan.source below).Serves (plan.Coherent I rows) (plan.picture rows) faults := by
  refine Source.serves_ofRows (fun y _ => hst.fits.size_run _ 0 _) fun region y hin hy => ?_
  obtain ⟨hright, hbottom⟩ := (Region.contains_ofSize_iff _ _).mp hin
  have hwidth := plan.width_le
  have hheight := plan.height_le
  rw [Region.right] at hright
  refine (hst.row_ensures (by omega) (by omega)).weaken (fun _ h => h) (fun row s h => ?_)
    fun _ _ h => h
  rw [picture, hst.fits.part_run hright]
  exact ⟨h.1, h.2.1⟩

end Resampling

namespace Chain

variable {α σ : Type} {below : Chain α σ} {plan : Resampling}

/-- The ways to put a resampling stage on a chain: with tables made for a target size, or with
tables that were made before and may ask the stage to keep its rows. -/
inductive Resamples [Scalar α] (below : Chain α σ) (plan : Resampling) : Prop
  | toSize {target : Size} {f : Interpolation α}
      (h : (below.resampled target f).result = .ok (below.resample plan))
  | ofTables {horizontal vertical : TapTable} {keepsSource : Bool} (hhorizontal : horizontal.Made)
      (hvertical : vertical.Made)
      (h : (below.withTables horizontal vertical keepsSource).result = .ok (below.resample plan))

/-- Tables for a target size are tables like any others that were made. -/
theorem Resamples.exists_withTables [Scalar α] (h : below.Resamples plan) :
    ∃ horizontal vertical keepsSource, TapTable.Made horizontal ∧ TapTable.Made vertical ∧
      (below.withTables horizontal vertical keepsSource).result = .ok (below.resample plan) := by
  cases h with
  | toSize h =>
    obtain ⟨kernel, horizontal, vertical, -, hhorizontal, hvertical, h⟩ :=
      resampled_eq_ok_iff.mp h
    exact ⟨horizontal, vertical, false, .scale hhorizontal, .scale hvertical, h⟩
  | ofTables hhorizontal hvertical h => exact ⟨_, _, _, hhorizontal, hvertical, h⟩

theorem Resamples.made [Scalar α] (h : below.Resamples plan) :
    plan.horizontal.Made ∧ plan.vertical.Made := by
  obtain ⟨horizontal, vertical, keepsSource, hhorizontal, hvertical, h⟩ := h.exists_withTables
  obtain ⟨built, hbuilt, heq⟩ := withTables_eq_ok_iff.mp h
  cases heq
  obtain ⟨_, -, -, -, -, -, rfl⟩ := Resampling.build_eq_ok_iff.mp hbuilt
  exact ⟨hhorizontal, hvertical⟩

/-- However a stage was put on its source, it can rely on it. -/
theorem Resamples.stands [Scalar α] (h : below.Resamples plan) {I : below.State → Prop}
    {rows : Nat → Bytes} {faults : Failure → Prop} (hgives : below.source.Gives I rows faults) :
    plan.Stands below.source I rows faults := by
  obtain ⟨horizontal, vertical, keepsSource, hhorizontal, hvertical, h⟩ := h.exists_withTables
  obtain ⟨built, hbuilt, heq⟩ := withTables_eq_ok_iff.mp h
  cases heq
  refine ⟨Resampling.fits_of_build hbuilt hhorizontal.confined hvertical.confined, ?_, ?_, hgives⟩
  · obtain ⟨_, -, -, -, -, -, rfl⟩ := Resampling.build_eq_ok_iff.mp hbuilt
    rfl
  · obtain ⟨_, -, -, -, -, -, rfl⟩ := Resampling.build_eq_ok_iff.mp hbuilt
    rfl

/-- Whatever a stage was asked before and however its source failed, a request that it answers
holds in row `r`, at byte `r * stride`, the convolution of the source's samples with the weights of
the two tables, and the rest of the buffer is as it was. -/
theorem copy_convolves [Scalar α] (hplan : below.Resamples plan) {s₀ : below.State}
    {rows : Nat → Bytes} (hsteady : below.source.Steady s₀ rows) (asked : List (Request × Bytes))
    {q : Request} {buffer : Bytes} {reply : Reply (Resampling.State below.State)}
    (hreply : reply = (plan.source below.source).copy q buffer
      ((plan.source below.source).after (.initial s₀) asked))
    (hok : reply.result = .ok ()) :
    (∀ r < q.region.height.toNat, ∃ row,
      reply.buffer.slice? (r * q.stride) (plan.format.rowBytes q.region.width) = some row ∧
        ∀ x < q.region.width.toNat, ∀ c < plan.kernel.channels,
          plan.kernel.width.load? row (x * plan.kernel.channels + c) =
            some (plan.convolved rows (q.region.y.toNat + r) (q.region.x.toNat + x) c)) ∧
      ∀ i, (∀ r < q.region.height.toNat,
        i < r * q.stride ∨ r * q.stride + plan.format.rowBytes q.region.width ≤ i) →
          reply.buffer[i]? = buffer[i]? := by
  have hst := hplan.stands hsteady.gives
  have hserves := hst.serves
  have hco := hserves.keeps_after (Resampling.coherent_initial (Source.reaches_self _ s₀))
    ⟨asked, rfl⟩
  subst hreply
  obtain ⟨n, hq⟩ := hserves.check_of_ok hco hok
  obtain ⟨hin, rfl, -⟩ := Request.check_eq_ok_iff.mp hq
  obtain ⟨hright, -⟩ := (Region.contains_ofSize_iff _ _).mp hin
  rw [Resampling.size_source, Region.right] at hright
  have hlaid := hserves.done hco hq hok
  refine ⟨fun r hr => ⟨_, hlaid.row r (Nat.zero_le r) hr, fun x hx c hc => ?_⟩, fun i hi => ?_⟩
  · rw [Request.rowsOf, Resampling.picture, Resampling.format_source, hst.fits.part_run hright]
    exact RowKernel.load?_pixels hx hc (plan.convolved_le rows _ _ _)
  · exact hlaid.rest i fun r _ hr => hi r hr

/-- Two pixels become three, and the last two are asked for after the first. -/
theorem copy_convolves_grey_pair :
    let img : Image := ⟨⟨2, 1⟩, .grey8, #[10, 200], by decide, by decide⟩
    let below : Chain Rat Unit := .base img.source
    ∃ plan row, below.Resamples plan ∧
      ((plan.source below.source).copy ⟨⟨1, 0, 2, 1⟩, 2⟩ #[0, 0] ((plan.source below.source).after
        (.initial (below.start ())) [(⟨⟨0, 0, 1, 1⟩, 1⟩, #[0])])).buffer.slice? 0 2 = some row ∧
      plan.kernel.width.load? row 1 = some (plan.convolved img.row 0 2 0) := by
  intro img below
  have hkernel : RowKernel.ofFormat? below.format = some ⟨1, .eight, .none⟩ := rfl
  obtain ⟨plan, h⟩ := exists_resampled ⟨3, 1⟩ hkernel (by decide) (by decide) (by decide)
    (by decide) (.plain .linear)
  have hplan : below.Resamples plan := .toSize h
  obtain ⟨_, heq, hsize, hformat⟩ := target_of_resampled h
  cases heq
  have himg : below.source.Serves (fun _ => True) img.row fun _ => False := img.serves
  have hserves := (hplan.stands himg.gives).serves
  have hq : (Request.mk ⟨1, 0, 2, 1⟩ 2).check plan.size plan.format (#[0, 0] : Bytes).size =
      .ok 2 := by
    rw [hsize, hformat]
    rfl
  have hok := hserves.serves_all (hserves.keeps_after
    (Resampling.coherent_initial (s := below.start ()) trivial)
    ⟨[(⟨⟨0, 0, 1, 1⟩, 1⟩, #[0])], rfl⟩) hq
  obtain ⟨hrows, -⟩ := copy_convolves hplan (himg.steady trivial) _ rfl hok
  obtain ⟨row, hslice, hload⟩ := hrows 0 (by decide)
  have hgrey := (hplan.stands himg.gives).fits.ofFormat?_eq
  rw [hformat] at hgrey
  have hone : plan.kernel.channels = 1 := by
    rw [← Option.some.inj hgrey]
    rfl
  rw [hformat] at hslice
  have hlast := hload 1 (by decide) 0 (by rw [hone]; decide)
  rw [hone] at hlast
  exact ⟨plan, row, hplan, hslice, hlast⟩

end Chain

end Resampler
