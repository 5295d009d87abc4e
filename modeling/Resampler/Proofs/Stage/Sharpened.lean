import Resampler.Proofs.Sharpening
import Resampler.Proofs.Stage.Resampled
import Resampler.Scalar.Binary64

/-!
What a sharpening stage serves.

The window of the blur is read twice, for the blurred row and for the sharp row that
is combined with it. The windows of a blur contain the sample that they are centered
on, at the ends of the axis too, so that after the blur of row `y` the sharp row `y`
is in the window, and it is that row and none of its neighbours.
-/

namespace Resampler

namespace Sharpening

variable {α σ : Type} {plan : Sharpening α} {rows : Nat → Bytes} {below : Source σ}
  {I : σ → Prop} {faults : Failure → Prop}

/-- The sample of channel `c` in column `x` and row `y` of the sharpened image. -/
def sharpened (plan : Sharpening α) (rows : Nat → Bytes) (y x c : Nat) : Nat :=
  plan.blur.kernel.sharpSample (rows y) (plan.blur.picture rows y) plan.settings.amount.toInt
    plan.settings.threshold.toNat x c

/-- Row `y` of the sharpened image. -/
def picture (plan : Sharpening α) (rows : Nat → Bytes) (y : Nat) : Bytes :=
  plan.blur.kernel.pixels (plan.sharpened rows y) 0 plan.blur.size.width.toNat

@[simp] theorem size_source (plan : Sharpening α) (below : Source σ) :
    (plan.source below).size = plan.blur.size := rfl

@[simp] theorem format_source (plan : Sharpening α) (below : Source σ) :
    (plan.source below).format = plan.blur.format := rfl

/-- The failure that reports a sharp row missing from the window. -/
def missing (y : Nat) : Failure :=
  .error (.other ("row " ++ toString y ++ " missing from blur window"))

/-- What a sharpening stage can rely on: its blur keeps the size and the rows of the source,
and its windows contain the samples that they are centered on. -/
structure Stands (plan : Sharpening α) (below : Source σ) (I : σ → Prop) (rows : Nat → Bytes)
    (faults : Failure → Prop) : Prop where
  blur : plan.blur.Stands below I rows faults
  keepsSource : plan.blur.keepsSource = true
  centered : plan.blur.vertical.Centered
  size_eq : plan.blur.size = plan.blur.sourceSize

namespace Stands

variable (hst : plan.Stands below I rows faults)
include hst

/-- After the blur of a row, that row is in the window as it came. -/
theorem blurRow_ensures {y x width : Nat} (hy : y < plan.blur.vertical.outputSize)
    (hx : x + width ≤ plan.blur.horizontal.outputSize) :
    (plan.blur.row below y x width).Ensures (plan.blur.Coherent I rows)
      (fun row s => row = plan.blur.kernel.pixels (plan.blur.convolved rows y) x width ∧
        plan.blur.Coherent I rows s ∧ s.window.keptRow? y = some (rows y) ∧
        (rows y).size = plan.blur.format.rowBytes plan.blur.sourceSize.width)
      fun e s => faults e ∧ plan.blur.Coherent I rows s := by
  refine (hst.blur.row_ensures hy hx).weaken (fun _ h => h) (fun row s h => ?_) fun _ _ h => h
  obtain ⟨hrow, hco, hstart, hsize⟩ := h
  obtain ⟨hlo, hhi⟩ := hst.centered y hy
  -- row `y` is in the window, since the window is that of output row `y` and complete
  rw [← hstart] at hlo hhi
  rw [← hsize] at hhi
  have hkept := hco.window.size_row (y - s.window.start) (by omega)
  rw [Nat.add_sub_cancel' hlo] at hkept
  exact ⟨hrow, hco, hco.window.keptRow?_eq hst.keepsSource hlo hhi, hkept⟩

theorem bytesPerPixel_pos : 0 < plan.blur.kernel.bytesPerPixel := by
  rw [hst.blur.fits.bytesPerPixel_eq]
  exact plan.blur.format.bytesPerPixel_pos

/-- The sharp and the blurred pixels of a part of a row make that part of the sharpened row. -/
theorem sharpenRow?_eq {y x width : Nat} (hx : x + width ≤ plan.blur.sourceSize.width.toNat)
    (hsize : (rows y).size = plan.blur.format.rowBytes plan.blur.sourceSize.width) :
    plan.blur.kernel.sharpenRow?
        ((rows y).part (x * plan.blur.format.bytesPerPixel)
          (width * plan.blur.format.bytesPerPixel))
        (plan.blur.kernel.pixels (plan.blur.convolved rows y) x width)
        plan.settings.amount.toInt plan.settings.threshold.toNat =
      some (plan.blur.kernel.pixels (plan.sharpened rows y) x width) := by
  have hwidth := hst.blur.fits.bytesPerPixel_eq
  have hblurred : plan.blur.kernel.pixels (plan.blur.convolved rows y) x width =
      (plan.blur.picture rows y).part (x * plan.blur.kernel.bytesPerPixel)
        (width * plan.blur.kernel.bytesPerPixel) := by
    rw [Resampling.picture, RowKernel.part_pixels hst.blur.fits.channels_pos
      (by rw [hst.size_eq]; exact hx), Nat.zero_add]
  rw [PixelFormat.rowBytes, ← hwidth] at hsize
  rw [hblurred, ← hwidth]
  refine RowKernel.sharpenRow?_part hst.bytesPerPixel_pos hx hsize ?_
  rw [Resampling.picture, RowKernel.size_pixels, hst.size_eq]

/-- An output row is that of the sharpened image, and nothing but the source fails. -/
theorem row_ensures {y x width : Nat} (hy : y < plan.blur.vertical.outputSize)
    (hout : x + width ≤ plan.blur.horizontal.outputSize)
    (hx : x + width ≤ plan.blur.sourceSize.width.toNat) :
    (plan.row below y x width).Ensures (plan.blur.Coherent I rows)
      (fun row s => row = plan.blur.kernel.pixels (plan.sharpened rows y) x width ∧
        plan.blur.Coherent I rows s)
      fun e s => faults e ∧ plan.blur.Coherent I rows s := by
  refine Pull.Ensures.bind _ (hst.blurRow_ensures hy hout) fun blurred => ?_
  refine Pull.Ensures.assuming (blurred =
      plan.blur.kernel.pixels (plan.blur.convolved rows y) x width ∧
      (rows y).size = plan.blur.format.rowBytes plan.blur.sourceSize.width) ?_
    fun s h => ⟨h.1, h.2.2.2⟩
  rintro ⟨rfl, hsize⟩
  -- reading the window is no action on it, so the blur's window is still there
  refine Pull.Ensures.bind (fun kept s => kept = some (rows y) ∧
    plan.blur.Coherent I rows s) (Pull.ensures_read fun s h => ⟨h.2.2.1, h.2.1⟩) fun kept => ?_
  refine Pull.Ensures.assuming (kept = some (rows y)) ?_ fun s h => h.1
  rintro rfl
  have hroom : x * plan.blur.format.bytesPerPixel + width * plan.blur.format.bytesPerPixel ≤
      (rows y).size := by
    rw [hsize, PixelFormat.rowBytes, ← Nat.add_mul]
    exact Nat.mul_le_mul_right _ hx
  refine Pull.Ensures.bind (fun sharp s => sharp =
      (rows y).part (x * plan.blur.format.bytesPerPixel)
        (width * plan.blur.format.bytesPerPixel) ∧ plan.blur.Coherent I rows s)
    (Pull.ensures_lookup (Bytes.slice?_of_le hroom) fun s h => ⟨rfl, h.2⟩) fun sharp => ?_
  refine Pull.Ensures.assuming (sharp =
      (rows y).part (x * plan.blur.format.bytesPerPixel)
        (width * plan.blur.format.bytesPerPixel)) ?_ fun s h => h.1
  rintro rfl
  exact Pull.ensures_lookup (hst.sharpenRow?_eq hx hsize) fun s h => ⟨rfl, h.2⟩

/-- A sharpened row is made only of a whole row of the source. -/
theorem size_of_row {y x width : Nat} (hy : y < plan.blur.vertical.outputSize)
    (hx : x + width ≤ plan.blur.horizontal.outputSize) {s : Resampling.State σ}
    (hs : plan.blur.Coherent I rows s) {bytes : Bytes}
    (hrow : (plan.row below y x width s).result = .ok bytes) :
    (rows y).size = plan.blur.format.rowBytes plan.blur.sourceSize.width := by
  cases hblur : (plan.blur.row below y x width s).result with
  | ok blurred => exact ((hst.blurRow_ensures hy hx).ok hs hblur).2.2.2
  | error e =>
    rw [row, Pull.bind_of_error hblur] at hrow
    cases hrow

/-- The stage serves the sharpened image and fails only where its source does. -/
theorem serves : (plan.source below).Serves (plan.blur.Coherent I rows) (plan.picture rows)
    faults := by
  refine Source.serves_ofRows (fun y _ => hst.blur.fits.size_run _ 0 _) fun region y hin hy => ?_
  obtain ⟨hright, hbottom⟩ := (Region.contains_ofSize_iff _ _).mp hin
  have hwidth := plan.blur.width_le
  have hheight := plan.blur.height_le
  rw [Region.right] at hright
  refine (hst.row_ensures (by omega) (by omega) (by rwa [hst.size_eq] at hright)).weaken
    (fun _ h => h) (fun row s h => ?_) fun _ _ h => h
  rw [picture, hst.blur.fits.part_run hright]
  exact h

/-- The rows of an answered request were made, so the source gave its own rows of these numbers,
and they are as long as rows should be. -/
theorem size_row_of_copy {s : Resampling.State σ} (hs : plan.blur.Coherent I rows s) {q : Request}
    {buffer : Bytes} (hok : ((plan.source below).copy q buffer s).result = .ok ()) {r : Nat}
    (hr : r < q.region.height.toNat) : (rows (q.region.y.toNat + r)).size =
      plan.blur.format.rowBytes plan.blur.sourceSize.width := by
  obtain ⟨n, hq⟩ := hst.serves.check_of_ok hs hok
  rw [size_source, format_source] at hq
  obtain ⟨hin, -, -⟩ := Request.check_eq_ok_iff.mp hq
  obtain ⟨hright, hbottom⟩ := (Region.contains_ofSize_iff _ _).mp hin
  rw [Region.right] at hright
  rw [Region.bottom] at hbottom
  have hwidth := plan.blur.width_le
  have hheight := plan.blur.height_le
  have hout : q.region.x.toNat + q.region.width.toNat ≤ plan.blur.horizontal.outputSize := by omega
  have hlay := hok
  rw [source, Source.copy_ofRows hq] at hlay
  obtain ⟨s', hs', bytes, hmade⟩ := Source.exists_made (fun r' _ hr' =>
    (hst.row_ensures (by omega) hout (by rwa [hst.size_eq] at hright)).weaken (fun _ h => h)
      (fun _ _ h => h.2) fun _ _ h => h.2) hs hlay (Nat.zero_le r) (by omega)
  exact hst.size_of_row (by omega) hout hs' hmade

/-- A row of an answered request is the requested part of the source's row, sharpened. -/
theorem row_of_copy {s : Resampling.State σ} (hs : plan.blur.Coherent I rows s) {q : Request}
    {buffer : Bytes} (hok : ((plan.source below).copy q buffer s).result = .ok ()) {r : Nat}
    (hr : r < q.region.height.toNat) :
    ∃ row, ((plan.source below).copy q buffer s).buffer.slice? (r * q.stride)
        (plan.blur.format.rowBytes q.region.width) = some row ∧
      plan.blur.kernel.sharpenRow?
        ((rows (q.region.y.toNat + r)).part (q.region.x.toNat * plan.blur.format.bytesPerPixel)
          (plan.blur.format.rowBytes q.region.width))
        (plan.blur.kernel.pixels (plan.blur.convolved rows (q.region.y.toNat + r))
          q.region.x.toNat q.region.width.toNat)
        plan.settings.amount.toInt plan.settings.threshold.toNat = some row := by
  obtain ⟨n, hq⟩ := hst.serves.check_of_ok hs hok
  rw [size_source, format_source] at hq
  obtain ⟨hin, rfl, -⟩ := Request.check_eq_ok_iff.mp hq
  obtain ⟨hright, -⟩ := (Region.contains_ofSize_iff _ _).mp hin
  rw [Region.right] at hright
  refine ⟨_, (hst.serves.done hs hq hok).row r (Nat.zero_le r) hr, ?_⟩
  rw [Request.rowsOf, format_source, picture, hst.blur.fits.part_run hright]
  exact hst.sharpenRow?_eq (by rwa [hst.size_eq] at hright) (hst.size_row_of_copy hs hok hr)

end Stands

end Sharpening

namespace Chain

variable {α σ : Type} [Analytic α] {below : Chain α σ} {settings : SharpenSettings α}
  {plan : Sharpening α}

/-- A sharpening stage that was put on a source can rely on it. -/
theorem stands_of_sharpened (h : (below.sharpened settings).result = .ok (below.sharpen plan))
    {I : below.State → Prop} {rows : Nat → Bytes} {faults : Failure → Prop}
    (hgives : below.source.Gives I rows faults) : plan.Stands below.source I rows faults := by
  obtain ⟨-, -, kernel, horizontal, vertical, blur, -, hhorizontal, hvertical, hbuild, heq⟩ :=
    sharpened_eq_ok_iff.mp h
  cases heq
  have hfits := Resampling.fits_of_build hbuild (TapTable.Made.blur hhorizontal).confined
    (TapTable.Made.blur hvertical).confined
  obtain ⟨-, houth, -⟩ := TapTable.shape_blur hhorizontal
  obtain ⟨-, houtv, -, hcentered⟩ := TapTable.shape_blur hvertical
  obtain ⟨kernel', -, -, -, -, -, rfl⟩ := Resampling.build_eq_ok_iff.mp hbuild
  refine ⟨⟨hfits, rfl, rfl, hgives⟩, rfl, hcentered, ?_⟩
  simp only [Resampling.size, houth, houtv, UInt32.ofNat_toNat]

/-- Whatever a stage was asked before and however its source failed, a request that it answers
holds in row `r`, at byte `r * stride`, the requested columns of the source's own row, sharpened by
the same pixels of its blur. A request fails because it is malformed or because the source fails:
that a row is missing from the window is an error that the stage itself never reports. -/
theorem copy_sharpens (hplan : (below.sharpened settings).result = .ok (below.sharpen plan))
    {s₀ : below.State} {rows : Nat → Bytes} (hsteady : below.source.Steady s₀ rows)
    (asked : List (Request × Bytes)) {q : Request} {buffer : Bytes}
    {reply : Reply (Resampling.State below.State)}
    (hreply : reply = (plan.source below.source).copy q buffer
      ((plan.source below.source).after (.initial s₀) asked)) :
    (RowKernel.ofFormat? below.format = some plan.blur.kernel ∧
      TapTable.blur below.size.width.toNat settings.radius plan.blur.kernel.weightColors
        plan.blur.kernel.splitsAlpha = .ok plan.blur.horizontal ∧
      TapTable.blur below.size.height.toNat settings.radius plan.blur.kernel.weightColors
        plan.blur.kernel.splitsAlpha = .ok plan.blur.vertical) ∧
    (reply.result = .ok () → ∀ r < q.region.height.toNat, ∃ row,
      reply.buffer.slice? (r * q.stride) (below.format.rowBytes q.region.width) = some row ∧
        plan.blur.kernel.sharpenRow?
          ((rows (q.region.y.toNat + r)).part (q.region.x.toNat * below.format.bytesPerPixel)
            (below.format.rowBytes q.region.width))
          (plan.blur.kernel.pixels (plan.blur.convolved rows (q.region.y.toNat + r))
            q.region.x.toNat q.region.width.toNat)
          settings.amount.toInt settings.threshold.toNat = some row) ∧
    (∀ e, reply.result = .error e →
      (∃ cause, q.check below.size below.format buffer.size = .error cause ∧ e = .error cause) ∨
        below.source.Refuses s₀ e) ∧
    ∀ y, reply.result = .error (Sharpening.missing y) →
      below.source.Refuses s₀ (Sharpening.missing y) := by
  have hst := stands_of_sharpened hplan hsteady.gives
  have hserves := hst.serves
  have hco := hserves.keeps_after (Resampling.coherent_initial (Source.reaches_self _ s₀))
    ⟨asked, rfl⟩
  have hsize : plan.blur.size = below.size := hst.size_eq.trans hst.blur.size_eq.symm
  have hformat : plan.blur.format = below.format := hst.blur.format_eq.symm
  have hsettings : plan.settings = settings := by
    obtain ⟨-, -, _, _, _, _, -, -, -, -, heq⟩ := sharpened_eq_ok_iff.mp hplan
    cases heq
    rfl
  subst hreply
  have hfailed {e : Failure} (he : ((plan.source below.source).copy q buffer
      ((plan.source below.source).after (.initial s₀) asked)).result = .error e) :=
    hserves.check_or_fault hco he
  rw [Sharpening.size_source, Sharpening.format_source, hsize, hformat] at hfailed
  refine ⟨?_, fun hok r hr => ?_, fun e he => hfailed he, fun y hy => ?_⟩
  · obtain ⟨-, -, kernel, horizontal, vertical, blur, hkernel, hhorizontal, hvertical, hbuild,
      heq⟩ := sharpened_eq_ok_iff.mp hplan
    cases heq
    obtain ⟨kernel', hkernel', -, -, -, -, rfl⟩ := Resampling.build_eq_ok_iff.mp hbuild
    rw [hkernel] at hkernel'
    cases hkernel'
    exact ⟨hkernel, hhorizontal, hvertical⟩
  · rw [← hformat, ← hsettings]
    exact hst.row_of_copy hco hok hr
  · rcases hfailed hy with ⟨cause, hq, hcause⟩ | h
    · cases hcause
      exact (Request.check_ne_other hq).elim
    · exact h

/-- The brighter of two pixels, asked for after both. -/
theorem copy_sharpens_grey_pair :
    let img : Image := ⟨⟨2, 1⟩, .grey8, #[10, 200], by decide, by decide⟩
    let below : Chain Float Unit := .base img.source
    let settings : SharpenSettings Float := ⟨50, 1.0, 0⟩
    ∃ plan row, (below.sharpened settings).result = .ok (below.sharpen plan) ∧
      ((plan.source below.source).copy ⟨⟨1, 0, 1, 1⟩, 1⟩ #[0] ((plan.source below.source).after
        (.initial (below.start ())) [(⟨⟨0, 0, 2, 1⟩, 2⟩, #[0, 0])])).buffer.slice? 0 1 = some row ∧
      plan.blur.kernel.sharpenRow? #[200] (plan.blur.kernel.pixels (plan.blur.convolved img.row 0)
        1 1) 50 0 = some row := by
  intro img below settings
  have hcheck : settings.check = .ok () := by decide +kernel
  have hsharpens : settings.sharpens = true := by decide +kernel
  have hkernel : RowKernel.ofFormat? below.format = some ⟨1, .eight, .none⟩ := rfl
  obtain ⟨plan, hplan⟩ := exists_sharpened hkernel (by decide) (by decide) hcheck hsharpens
  obtain ⟨hsize, hformat⟩ := shape_of_sharpened hplan
  have himg : below.source.Serves (fun _ => True) img.row fun _ => False := img.serves
  have hserves := (stands_of_sharpened hplan himg.gives).serves
  have hq : (Request.mk ⟨1, 0, 1, 1⟩ 1).check plan.blur.size plan.blur.format
      (#[0] : Bytes).size = .ok 1 := by
    rw [hsize, hformat]
    rfl
  have hok := hserves.serves_all (hserves.keeps_after
    (Resampling.coherent_initial (s := below.start ()) trivial)
    ⟨[(⟨⟨0, 0, 2, 1⟩, 2⟩, #[0, 0])], rfl⟩) hq
  obtain ⟨-, hrows, -⟩ := copy_sharpens hplan (himg.steady trivial) _ rfl
  obtain ⟨row, hslice, hrow⟩ := hrows hok 0 (by decide)
  exact ⟨plan, row, hplan, hslice, hrow⟩

end Chain

end Resampler
