import Resampler.Proofs.Sharpening.Away
import Resampler.Proofs.Stage.Sharpened

/-!
Sharpening that changes nothing.

An amount of nothing adds nothing to any sample. Nor does any amount where only a difference of
the whole range is large enough: then the sample is at one end of the range and its blurred value
at the other, and a sample that is moved away from that stays at its end. So a stage with either
of these settings makes the image that it was put on, whatever its blur makes of it, and answers
every request as that image does.
-/

namespace Resampler

/-- Nothing is added, or only at the ends of the range. -/
def RowKernel.Idle (amount : Int32) (threshold : UInt8) : Prop :=
  amount = 0 ∨ threshold = 255 ∧ 0 ≤ amount

namespace RowKernel

section Samples

variable {limit threshold amount full o b : Int}

theorem sharpened_zero (ho : 0 ≤ o) : sharpened limit threshold 0 o b = o := by
  rcases lt_or_ge |o - b| threshold with hsmall | hlarge
  · exact sharpened_of_lt hsmall
  · have hgain : gain 0 (o - b) = 0 := by
      rw [gain, mul_zero]
      decide
    rw [sharpened_of_le hlarge, hgain]
    omega

/-- A difference of the whole range is one between its ends, and at its end a sample stays. -/
theorem sharpened_full (ho : 0 ≤ o) (hb : 0 ≤ b) (hb' : b ≤ full)
    (hlimit : limit ≤ full) (hamount : 0 ≤ amount) : sharpened limit full amount o b = o := by
  rcases lt_or_ge |o - b| full with hsmall | hlarge
  · exact sharpened_of_lt hsmall
  obtain ⟨hlo, hhi⟩ := (sharpened_mem ho : 0 ≤ sharpened limit full amount o b ∧ _)
  rcases le_total b o with hbelow | habove
  · rw [abs_of_nonneg (sub_nonneg.mpr hbelow)] at hlarge
    have hle : o ≤ sharpened limit full amount o b := le_sharpened hamount hbelow
    omega
  · rw [abs_of_nonpos (sub_nonpos.mpr habove)] at hlarge
    have hle : sharpened limit full amount o b ≤ o := sharpened_le ho hamount habove
    omega

end Samples

/-- The largest threshold is the largest sample. -/
theorem threshold_full (width : SampleWidth) : 255 * width.stepsPerByte = width.max := by
  cases width <;> rfl

theorem limit_le (k : RowKernel) (sharp : Bytes) (x : Nat) : k.limit sharp x ≤ k.width.max := by
  unfold limit
  split
  · exact k.sample_le ..
  · exact le_rfl

variable {k : RowKernel} {sharp blurred : Bytes} {amount : Int32} {threshold : UInt8} {n : Nat}

section Rows

variable (hidle : Idle amount threshold) (hsharp : sharp.size = n * k.bytesPerPixel)
  (hblurred : blurred.size = n * k.bytesPerPixel)
include hidle hsharp hblurred

theorem sharpSample_of_idle {x c : Nat} (hx : x < n) (hc : c < k.channels) :
    k.sharpSample sharp blurred amount.toInt threshold.toNat x c = k.sample sharp x c := by
  by_cases halpha : k.IsAlpha c
  · exact sharpSample_alpha hsharp hx hc halpha
  refine Int.ofNat_inj.mp ((sharpSample_color hsharp hblurred hx hc halpha).trans ?_)
  rcases hidle with rfl | ⟨rfl, hamount⟩
  · exact sharpened_zero (Int.natCast_nonneg _)
  · have hfull : (255 : UInt8).toNat * k.width.stepsPerByte = k.width.max := threshold_full k.width
    rw [hfull]
    exact sharpened_full (Int.natCast_nonneg _) (Int.natCast_nonneg _) (Int.ofNat_le.mpr (k.sample_le ..))
      (Int.ofNat_le.mpr (k.limit_le ..)) (Int32.le_iff_toInt_le.mp hamount)

/-- The pixels of a sharpened row are those of the sharp row. -/
theorem pixels_of_idle :
    k.pixels (k.sharpSample sharp blurred amount.toInt threshold.toNat) 0 n = sharp := by
  refine (pixels_congr fun x hx c hc => ?_).trans (pixels_sample hsharp)
  rw [Nat.zero_add]
  exact sharpSample_of_idle hidle hsharp hblurred hx hc

theorem sharpenInto?_of_idle (hpos : 0 < k.bytesPerPixel) {dst : Bytes}
    (hdst : dst.size = sharp.size) :
    k.sharpenInto? sharp blurred amount.toInt threshold.toNat dst = some sharp := by
  have hn : dst.size / k.bytesPerPixel = n := by
    rw [hdst, hsharp, Nat.mul_div_cancel _ hpos]
  rw [sharpenInto?_eq hpos hsharp hblurred hn.le, hn, pixels_of_idle hidle hsharp hblurred,
    Bytes.blit?_zero hdst.symm]

end Rows

end RowKernel

namespace Sharpening

variable {α σ : Type} {plan : Sharpening α} {rows : Nat → Bytes} {below : Source σ}
  {I : σ → Prop}

/-- Each row of the sharpened image is the row of the source. -/
theorem picture_of_idle {faults : Failure → Prop} (hst : plan.Stands below I rows faults)
    (hidle : RowKernel.Idle plan.settings.amount plan.settings.threshold) {y : Nat}
    (hrow : (rows y).size = plan.blur.format.rowBytes plan.blur.size.width) :
    plan.picture rows y = rows y := by
  rw [PixelFormat.rowBytes, ← hst.blur.fits.bytesPerPixel_eq] at hrow
  exact RowKernel.pixels_of_idle hidle hrow (RowKernel.size_pixels ..)

/-- On a source that cannot fail, the stage answers every request as its source does, in any two
states that they may be in. -/
theorem Stands.answers_of_idle (hst : plan.Stands below I rows fun _ => False)
    (hidle : RowKernel.Idle plan.settings.amount plan.settings.threshold)
    (hbelow : below.Serves I rows fun _ => False) {s : Resampling.State σ} {t : σ}
    (hs : plan.blur.Coherent I rows s) (ht : I t) (q : Request) (buffer : Bytes) :
    ((plan.source below).copy q buffer s).result = (below.copy q buffer t).result ∧
      ((plan.source below).copy q buffer s).buffer = (below.copy q buffer t).buffer := by
  have hsize : below.size = plan.blur.size := hst.blur.size_eq.trans hst.size_eq.symm
  refine hst.serves.answers_eq hbelow hsize hst.blur.format_eq (fun y hy => ?_) hs ht q buffer
  rw [size_source, ← hsize] at hy
  have hrow := hbelow.size_row y hy
  rw [hsize, hst.blur.format_eq] at hrow
  exact picture_of_idle hst hidle hrow

end Sharpening

namespace Chain

variable {α σ : Type} [Analytic α]

/-- No row is changed by an amount of nothing, nor by any amount with the largest threshold. A
stage with this threshold answers every request with what the image answers on which it was put,
whatever it was asked before: with the bytes of the image in the requested rectangle, or with the
same error. -/
theorem copy_idle :
    (∀ (format : PixelFormat) (k : RowKernel), RowKernel.ofFormat? format = some k →
      ∀ (n : Nat) (sharp blurred dst : Bytes), sharp.size = n * k.bytesPerPixel →
        blurred.size = n * k.bytesPerPixel → dst.size = n * k.bytesPerPixel →
        ∀ (amount : Int32) (threshold : UInt8), amount = 0 ∨ threshold = 255 ∧ 0 ≤ amount →
          k.sharpenInto? sharp blurred amount.toInt threshold.toNat dst = some sharp) ∧
    ∀ (v : View), v.InMemory → ∀ (settings : SharpenSettings α), settings.threshold = 255 →
      ∀ plan, ((base v.source : Chain α σ).sharpened settings).result =
          .ok ((base v.source).sharpen plan) →
        ∀ (s : σ) (asked : List (Request × Bytes)) (q : Request) (buffer : Bytes)
          (reply : Reply (Resampling.State σ)),
          reply = (plan.source v.source).copy q buffer
              ((plan.source v.source).after (.initial s) asked) →
            reply.result = (v.source.copy q buffer s).result ∧
            reply.buffer = (v.source.copy q buffer s).buffer ∧
            ∀ m, q.check v.size v.format buffer.size = .ok m →
              reply.result = .ok () ∧ ∀ r < q.region.height.toNat,
                reply.buffer.slice? (r * q.stride) m = some (q.rowsOf v.format v.row r) := by
  constructor
  · intro format k hk n sharp blurred dst hsharp hblurred hdst amount threshold hidle
    have hpos : 0 < k.bytesPerPixel := RowKernel.bytesPerPixel_pos_of_ofFormat? hk
    exact RowKernel.sharpenInto?_of_idle hidle hsharp hblurred hpos (hdst.trans hsharp.symm)
  · intro v hv settings hthreshold plan hplan s asked q buffer reply hreply
    have hview : (v.source : Source σ).Serves (fun _ => True) v.row fun _ => False := hv.serves
    have hst : plan.Stands (v.source : Source σ) (fun _ => True) v.row fun _ => False :=
      stands_of_sharpened hplan hview.gives
    have hidle : RowKernel.Idle plan.settings.amount plan.settings.threshold := by
      obtain ⟨-, hsharpens, _, _, _, _, -, -, -, -, heq⟩ := sharpened_eq_ok_iff.mp hplan
      cases heq
      simp only [SharpenSettings.sharpens, Bool.and_eq_true, decide_eq_true_eq] at hsharpens
      exact .inr ⟨hthreshold, Int32.le_of_lt hsharpens.1⟩
    have hco := hst.serves.keeps_after (Resampling.coherent_initial (s := s) trivial) ⟨asked, rfl⟩
    obtain ⟨hresult, hbuffer⟩ := hst.answers_of_idle hidle hview hco (t := s) trivial q buffer
    subst hreply
    refine ⟨hresult, hbuffer, fun m hq => ?_⟩
    obtain ⟨hok, hlaid⟩ := hview.laid_after trivial [] hq rfl
    rw [hresult, hbuffer]
    exact ⟨hok, fun r hr => hlaid.row r (Nat.zero_le r) hr⟩

/-- A pixel with colors above its alpha and at the ends of the range; and the right column of two
padded rows, asked for after the lower row. -/
theorem copy_idle_padded_square :
    let k : RowKernel := ⟨4, .eight, .premultiplied⟩
    let v : View := ⟨⟨2, 2⟩, .grey8, 3, #[10, 200, 0, 255, 40]⟩
    let below : Chain Float Unit := .base v.source
    let lower : Request × Bytes := (⟨⟨0, 1, 2, 1⟩, 2⟩, #[0, 0])
    k.sharpenInto? #[255, 20, 0, 10] #[0, 40, 255, 7] 300 255 #[1, 1, 1, 1] =
        some #[255, 20, 0, 10] ∧
      ∃ plan, (below.sharpened ⟨150, 1.5, 255⟩).result = .ok (below.sharpen plan) ∧
        ((plan.source below.source).copy ⟨⟨1, 0, 1, 2⟩, 2⟩ #[7, 7, 7]
          ((plan.source below.source).after (.initial ()) [lower])).buffer = #[200, 7, 40] := by
  intro k v below lower
  obtain ⟨hrows, hstages⟩ := copy_idle (α := Float) (σ := Unit)
  have hkernel : RowKernel.ofFormat? below.format = some ⟨1, .eight, .none⟩ := rfl
  have hcheck : (⟨150, 1.5, 255⟩ : SharpenSettings Float).check = .ok () := by decide +kernel
  have hsharpens : (⟨150, 1.5, 255⟩ : SharpenSettings Float).sharpens = true := by decide +kernel
  have hview : v.InMemory := .ofBytes (rfl : View.ofBytes ⟨2, 2⟩ .grey8 3 v.data = .ok v)
  obtain ⟨plan, hplan⟩ :=
    exists_sharpened hkernel (by decide) (by decide) hcheck hsharpens
  obtain ⟨-, hbuffer, -⟩ :=
    hstages v hview _ rfl plan hplan () [lower] ⟨⟨1, 0, 1, 2⟩, 2⟩ #[7, 7, 7] _ rfl
  refine ⟨hrows .pbgra32 k rfl 1 _ _ _ rfl rfl rfl 300 255 (.inr ⟨rfl, by decide⟩), plan, hplan,
    hbuffer.trans ?_⟩
  decide +kernel

end Chain

end Resampler
