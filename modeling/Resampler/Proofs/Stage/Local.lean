import Resampler.Proofs.Pixel.Overlap
import Resampler.Proofs.Stage.Sampled

/-!
What a resampled sample depends on.

A sample of a resampled image is computed from the samples of its own channel in its
window. Whatever else there is in the source, in other channels or outside the window, makes no
difference to it, and neither does what the stage was asked before, which rectangle the
sample is asked for with, or how the rows of the buffer are padded.
-/

namespace Resampler

/-- The pixels of a request that passes the check are pixels of the image. -/
theorem Region.Includes.lt_of_check {q : Request} {y x : Nat} (h : q.region.Includes y x)
    {size : Size} {format : PixelFormat} {bufferSize n : Nat}
    (hq : q.check size format bufferSize = .ok n) :
    y < size.height.toNat ∧ x < size.width.toNat := by
  obtain ⟨hin, -⟩ := Request.check_eq_ok_iff.mp hq
  obtain ⟨hright, hbottom⟩ := (Region.contains_ofSize_iff _ _).mp hin
  exact ⟨Nat.lt_of_lt_of_le h.lt_bottom hbottom, Nat.lt_of_lt_of_le h.lt_right hright⟩

namespace Resampling

variable (plan : Resampling)

/-- The sample of channel `c` in column `x` and row `y` of the resampled image, read from the
buffer with the answer to a request for it. -/
def answered? (q : Request) (buffer : Bytes) (y x c : Nat) : Option Nat := do
  let row ← buffer.slice? ((y - q.region.y.toNat) * q.stride) (plan.format.rowBytes q.region.width)
  plan.kernel.width.load? row ((x - q.region.x.toNat) * plan.kernel.channels + c)

/-- Two sources have the same samples of channel `c` in the window of the sample in column `x` and
row `y`. -/
def AgreeAt (rows rows' : Nat → Bytes) (y x c : Nat) : Prop :=
  ∀ s, plan.vertical.Covers y s → ∀ i, plan.horizontal.Covers x i →
    plan.kernel.width.load? (rows s) (i * plan.kernel.channels + c) =
      plan.kernel.width.load? (rows' s) (i * plan.kernel.channels + c)

/-- Two sources have the same samples of channel `c`. -/
def AgreeIn (rows rows' : Nat → Bytes) (c : Nat) : Prop :=
  ∀ s < plan.sourceSize.height.toNat, ∀ i < plan.sourceSize.width.toNat,
    plan.kernel.width.load? (rows s) (i * plan.kernel.channels + c) =
      plan.kernel.width.load? (rows' s) (i * plan.kernel.channels + c)

variable {plan} {rows rows' : Nat → Bytes} {y x c : Nat}

theorem Fits.agreeAt_of_agreeIn (hfits : plan.Fits) (h : plan.AgreeIn rows rows' c)
    (hy : y < plan.vertical.outputSize) (hx : x < plan.horizontal.outputSize) :
    plan.AgreeAt rows rows' y x c := fun s hs i hi =>
  h s (hfits.height_eq ▸ hfits.vertical.lt_of_covers hy hs) i
    (hfits.width_eq ▸ hfits.horizontal.lt_of_covers hx hi)

theorem across_congr {s : Nat} (h : ∀ i, plan.horizontal.Covers x i →
    plan.kernel.sample (rows s) i c = plan.kernel.sample (rows' s) i c) :
    plan.across rows s x c = plan.across rows' s x c := by
  have hsum : plan.acrossSum rows s x c = plan.acrossSum rows' s x c :=
    Finset.sum_congr rfl fun j hj => by
      rw [h _ (plan.horizontal.covers_tap x (Finset.mem_range.mp hj))]
  rw [across_eq, across_eq, hsum]

/-- Where two sources agree in the window of a sample, the samples agree. -/
theorem convolved_congr (h : plan.AgreeAt rows rows' y x c) :
    plan.convolved rows y x c = plan.convolved rows' y x c := by
  have hsum : plan.downSum rows y x c = plan.downSum rows' y x c :=
    Finset.sum_congr rfl fun r hr => by
      have hs := plan.vertical.covers_tap y (Finset.mem_range.mp hr)
      rw [across_congr fun i hi => congrArg (Option.getD · 0) (h _ hs i hi)]
  rw [convolved_eq, convolved_eq, hsum]

/-- The sample that a caller reads in the answer to a request is that of the resampled image. -/
theorem Seated.answered?_copy {σ : Type} {below : Source σ} (hseat : plan.Seated below) {s₀ : σ}
    (hsteady : below.Steady s₀ rows) (asked : List (Request × Bytes)) {q : Request}
    {buffer : Bytes} {reply : Reply (State σ)}
    (hreply : reply = (plan.source below).copy q buffer
      ((plan.source below).after (.initial s₀) asked))
    (hok : reply.result = .ok ()) (hin : q.region.Includes y x) (hc : c < plan.kernel.channels) :
    plan.answered? q reply.buffer y x c = some (plan.convolved rows y x c) := by
  have hstage : (Stage.resampling plan : Stage Unit).Seated below := hseat
  obtain ⟨hleft, hright, htop, hbottom⟩ := hin
  rw [Region.right] at hright
  rw [Region.bottom] at hbottom
  obtain ⟨row, hslice, hload⟩ := hstage.load?_copy hsteady asked hreply hok
    (r := y - q.region.y.toNat) (by omega)
  have hsample := hload (x - q.region.x.toNat) (by omega) c hc
  rw [Nat.add_sub_cancel' htop, Nat.add_sub_cancel' hleft] at hsample
  exact Option.bind_eq_some_iff.mpr ⟨row, hslice, hsample⟩

end Resampling

namespace Chain

variable {α σ τ : Type} [Analytic α] {below : Chain α σ} {below' : Chain α τ} {plan : Resampling}

theorem Resamples.answered?_copy (hplan : below.Resamples plan) {s₀ : below.State}
    {rows : Nat → Bytes} (hsteady : below.source.Steady s₀ rows) (asked : List (Request × Bytes))
    {q : Request} {buffer : Bytes} {reply : Reply (Resampling.State below.State)}
    (hreply : reply = (plan.source below.source).copy q buffer
      ((plan.source below.source).after (.initial s₀) asked))
    (hok : reply.result = .ok ()) {y x c : Nat} (hin : q.region.Includes y x)
    (hc : c < plan.kernel.channels) :
    plan.answered? q reply.buffer y x c = some (plan.convolved rows y x c) :=
  (hplan.stands hsteady.gives).seated.answered?_copy hsteady asked hreply hok hin hc

/-- Two stages with the same tables, on two sources of the same size and format, were asked
whatever they were asked before. Both now answer for a sample, and the two answers are equal if the
sources agree, in the channel of that sample, on its window. So they are if the sources agree in
that channel everywhere, whatever there is in the others: colors do not leak into straight alpha
nor alpha into colors. -/
theorem copy_local (hplan : below.Resamples plan) (hplan' : below'.Resamples plan)
    {s₀ : below.State} {s₀' : below'.State} {rows rows' : Nat → Bytes}
    (hsteady : below.source.Steady s₀ rows) (hsteady' : below'.source.Steady s₀' rows')
    (asked asked' : List (Request × Bytes)) {q q' : Request} {buffer buffer' : Bytes}
    {reply : Reply (Resampling.State below.State)} {reply' : Reply (Resampling.State below'.State)}
    (hreply : reply = (plan.source below.source).copy q buffer
      ((plan.source below.source).after (.initial s₀) asked))
    (hreply' : reply' = (plan.source below'.source).copy q' buffer'
      ((plan.source below'.source).after (.initial s₀') asked'))
    (hok : reply.result = .ok ()) (hok' : reply'.result = .ok ()) {y x c : Nat}
    (hin : q.region.Includes y x) (hin' : q'.region.Includes y x)
    (hc : c < plan.kernel.channels) :
    ∃ v v', plan.answered? q reply.buffer y x c = some v ∧
      plan.answered? q' reply'.buffer y x c = some v' ∧
      (plan.AgreeAt rows rows' y x c → v = v') ∧ (plan.AgreeIn rows rows' c → v = v') := by
  refine ⟨_, _, hplan.answered?_copy hsteady asked hreply hok hin hc,
    hplan'.answered?_copy hsteady' asked' hreply' hok' hin' hc, Resampling.convolved_congr,
    fun hagree => Resampling.convolved_congr ?_⟩
  have hstage : below.Takes (.resampling plan) := .resampling hplan
  have hfits : plan.Fits := hstage.seated.tables.fits
  have hq : q.check plan.size plan.format buffer.size =
      .ok (plan.format.rowBytes q.region.width) :=
    (Stage.resampling plan : Stage α).check_of_ok (hreply ▸ hok)
  obtain ⟨hlow, hright⟩ := hin.lt_of_check hq
  exact hfits.agreeAt_of_agreeIn hagree (Nat.lt_of_lt_of_le hlow plan.height_le)
    (Nat.lt_of_lt_of_le hright plan.width_le)

/-- Two pairs of pixels have the same alpha and other colors. The alpha of their means is the same,
be it asked for once or twice. -/
theorem copy_local_pairs :
    let img : Image := ⟨⟨1, 2⟩, .bgra32, #[10, 20, 30, 40, 50, 60, 70, 80], by decide, by decide⟩
    let img' : Image := ⟨⟨1, 2⟩, .bgra32, #[255, 0, 7, 40, 1, 2, 3, 80], by decide, by decide⟩
    let below : Chain Float Unit := .base img.source
    let below' : Chain Float Unit := .base img'.source
    let plan : Resampling := ⟨⟨1, 2⟩, .bgra32, ⟨4, .eight, .straight⟩,
      ⟨1, 1, 4, #[⟨0, Array.replicate 4 32768⟩]⟩, ⟨2, 2, 4, #[⟨0, Array.replicate 8 16384⟩]⟩, false⟩
    let mean : Request := ⟨⟨0, 0, 1, 1⟩, 4⟩
    let mean' : Request := ⟨⟨0, 0, 1, 1⟩, 6⟩
    let reply := (plan.source below.source).copy mean #[0, 0, 0, 0] (.initial ())
    let reply' := (plan.source below'.source).copy mean' #[1, 1, 1, 1, 1]
      ((plan.source below'.source).after (.initial ()) [(mean, #[0, 0, 0, 0])])
    below.Resamples plan ∧ below'.Resamples plan ∧
      plan.answered? mean reply.buffer 0 0 3 = some 60 ∧
        plan.answered? mean' reply'.buffer 0 0 3 = some 60 := by
  intro img img' below below' plan mean mean' reply reply'
  have hacross : TapTable.scale (1 : UInt32).toNat (1 : UInt32).toNat 3 true
      (.plain .box : Interpolation Float) = .ok plan.horizontal :=
    eq_ok_of_toOption (by decide +kernel)
  have hdown : TapTable.scale (2 : UInt32).toNat (1 : UInt32).toNat 3 true
      (.plain .box : Interpolation Float) = .ok plan.vertical :=
    eq_ok_of_toOption (by decide +kernel)
  have hstage : below.Takes (.resampling plan) :=
    takes_of_scale ⟨1, 1⟩ (.plain .box) rfl hacross hdown
  have hstage' : below'.Takes (.resampling plan) :=
    takes_of_scale ⟨1, 1⟩ (.plain .box) rfl hacross hdown
  obtain ⟨hplan⟩ := hstage
  obtain ⟨hplan'⟩ := hstage'
  have himg : below.source.Serves (fun _ => True) img.row fun _ => False := img.serves
  have himg' : below'.source.Serves (fun _ => True) img'.row fun _ => False := img'.serves
  have hin : mean.region.Includes 0 0 := ⟨by decide, by decide, by decide, by decide⟩
  have hagree : plan.AgreeIn img.row img'.row 3 := by
    have : ∀ s < 2, ∀ i < 1, SampleWidth.eight.load? (img.row s) (i * 4 + 3) =
        SampleWidth.eight.load? (img'.row s) (i * 4 + 3) := by decide +kernel
    exact this
  obtain ⟨v, v', hv, hv', -, hsame⟩ := copy_local hplan hplan' (himg.steady trivial)
    (himg'.steady trivial) [] [(mean, #[0, 0, 0, 0])] (rfl : reply = _) (rfl : reply' = _)
    (by decide +kernel) (by decide +kernel) hin hin (c := 3) (by decide)
  have hmean : plan.answered? mean reply.buffer 0 0 3 = some 60 := by decide +kernel
  refine ⟨hplan, hplan', hmean, ?_⟩
  rw [hv', ← hsame hagree, ← hv, hmean]

end Chain

end Resampler
