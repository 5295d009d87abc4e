import Resampler.Proofs.FixedPoint
import Resampler.Proofs.Stage.Resampled

/-!
The identity.

A window that gives all of its weight to the sample of its own place takes that sample as
it is: times one, a sample is a multiple of what either pass drops. A stage whose windows
are all of this kind, however many taps they have and wherever they start, makes the image that
it was put on, and answers every request as that image does.
-/

namespace Resampler

namespace TapTable

/-- Every window gives the weight one to the sample of its own place, in each channel, and no
weight to its other samples. -/
structure Impulse (t : TapTable) : Prop where
  confined : t.Confined
  outputSize_eq : t.outputSize = t.inputSize
  centered : t.Centered
  weight_eq : ∀ i < t.outputSize, ∀ j < t.tapCount, ∀ c < t.channels,
    t.weight i j c = if (t.window i).start + j = i then FixedPoint.one else 0

/-- The sum over a window is its own sample times one. -/
theorem Impulse.sum_mul {t : TapTable} (h : t.Impulse) {i c : Nat} (hi : i < t.outputSize)
    (hc : c < t.channels) (f : Nat → Int) :
    ∑ j ∈ Finset.range t.tapCount, f ((t.window i).start + j) * t.weight i j c =
      f i * FixedPoint.one := by
  obtain ⟨hlo, hhi⟩ := h.centered i hi
  have hown : (t.window i).start + (i - (t.window i).start) = i := Nat.add_sub_cancel' hlo
  have htap : i - (t.window i).start < t.tapCount := by omega
  -- the tap of the sample itself is the only one with a weight
  rw [Finset.sum_eq_single (i - (t.window i).start)]
  · rw [hown, h.weight_eq i hi _ htap c hc, if_pos hown]
  · intro j hj hother
    rw [h.weight_eq i hi j (Finset.mem_range.mp hj) c hc, if_neg (by omega), mul_zero]
  · intro habsent
    exact absurd (Finset.mem_range.mpr htap) habsent

end TapTable

namespace Resampling

variable {plan : Resampling} {rows : Nat → Bytes}

section Impulse

variable (hfits : plan.Fits) (hhorizontal : plan.horizontal.Impulse)
  (hvertical : plan.vertical.Impulse)
include hfits hhorizontal

theorem across_of_impulse {s x c : Nat} (hx : x < plan.horizontal.outputSize)
    (hc : c < plan.kernel.channels) :
    plan.across rows s x c = plan.kernel.sample (rows s) x c * 2 ^ FixedPoint.guardBits := by
  have hsum : plan.acrossSum rows s x c = plan.kernel.sample (rows s) x c * FixedPoint.one :=
    hhorizontal.sum_mul hx (hfits.horizontal_channels ▸ hc)
      fun i => (plan.kernel.sample (rows s) i c : Int)
  rw [across_eq, hsum]
  exact FixedPoint.dropBits_horizontal ((plan.kernel.sample_le ..).trans plan.kernel.width.max_le)

include hvertical

/-- Each sample is the sample of its own place. -/
theorem convolved_of_impulse {y x c : Nat} (hy : y < plan.vertical.outputSize)
    (hx : x < plan.horizontal.outputSize) (hc : c < plan.kernel.channels) :
    plan.convolved rows y x c = plan.kernel.sample (rows y) x c := by
  have hsum : plan.downSum rows y x c =
      plan.kernel.sample (rows y) x c * 2 ^ FixedPoint.guardBits * FixedPoint.one := by
    rw [← across_of_impulse hfits hhorizontal hx hc]
    exact hvertical.sum_mul hy (hfits.vertical_channels ▸ hc) fun s => plan.across rows s x c
  rw [convolved_eq, hsum]
  exact FixedPoint.dropBits_vertical (plan.kernel.sample_le ..) plan.kernel.width.max_le

theorem size_of_impulse : plan.size = plan.sourceSize := by
  rw [size, hhorizontal.outputSize_eq, hvertical.outputSize_eq, hfits.width_eq, hfits.height_eq,
    UInt32.ofNat_toNat, UInt32.ofNat_toNat]

/-- Each row of the resampled image is the row of the source. -/
theorem picture_of_impulse {y : Nat} (hy : y < plan.sourceSize.height.toNat)
    (hrow : (rows y).size = plan.format.rowBytes plan.sourceSize.width) :
    plan.picture rows y = rows y := by
  have hsize := size_of_impulse hfits hhorizontal hvertical
  have hpixels : (rows y).size = plan.size.width.toNat * plan.kernel.bytesPerPixel := by
    rw [hrow, hsize, hfits.bytesPerPixel_eq, PixelFormat.rowBytes]
  rw [← hsize] at hy
  refine (RowKernel.pixels_congr fun x hx c hc => ?_).trans (RowKernel.pixels_sample hpixels)
  rw [Nat.zero_add]
  exact convolved_of_impulse hfits hhorizontal hvertical (Nat.lt_of_lt_of_le hy plan.height_le)
    (Nat.lt_of_lt_of_le hx plan.width_le) hc

end Impulse

/-- On a source that cannot fail, the stage answers every request as its source does, in any two
states that they may be in. -/
theorem Stands.answers_of_impulse {σ : Type} {below : Source σ} {I : σ → Prop}
    (hst : plan.Stands below I rows fun _ => False) (hhorizontal : plan.horizontal.Impulse)
    (hvertical : plan.vertical.Impulse) (hbelow : below.Serves I rows fun _ => False)
    {s : State σ} {t : σ} (hs : plan.Coherent I rows s) (ht : I t) (q : Request) (buffer : Bytes) :
    ((plan.source below).copy q buffer s).result = (below.copy q buffer t).result ∧
      ((plan.source below).copy q buffer s).buffer = (below.copy q buffer t).buffer := by
  have hsize : below.size = plan.size :=
    hst.size_eq.trans (size_of_impulse hst.fits hhorizontal hvertical).symm
  refine hst.serves.answers_eq hbelow hsize hst.format_eq (fun y hy => ?_) hs ht q buffer
  rw [size_source, ← hsize] at hy
  have hrow := hbelow.size_row y hy
  rw [hst.size_eq] at hy hrow
  rw [hst.format_eq] at hrow
  exact picture_of_impulse hst.fits hhorizontal hvertical hy hrow

end Resampling

namespace Chain

variable {α σ : Type}

/-- Tables that give each sample to itself can be put on every image whose format has a row
kernel. The stage then answers every request with what the image itself answers, whatever it was
asked before: with the bytes of the image in the requested rectangle, or with the same error. -/
theorem copy_identity {img : Image} {k : RowKernel} (hk : RowKernel.ofFormat? img.format = some k)
    {horizontal vertical : TapTable} (hhorizontal : horizontal.Impulse)
    (hvertical : vertical.Impulse) (hch : horizontal.channels = k.channels)
    (hcv : vertical.channels = k.channels) (hwidth : horizontal.inputSize = img.size.width.toNat)
    (hheight : vertical.inputSize = img.size.height.toNat) (keepsSource : Bool) :
    ∃ plan, ((base img.source : Chain α σ).withTables horizontal vertical keepsSource).result =
        .ok ((base img.source).resample plan) ∧
      ∀ (s : σ) (asked : List (Request × Bytes)) (q : Request) (buffer : Bytes)
        (reply : Reply (Resampling.State σ)),
        reply = (plan.source img.source).copy q buffer
            ((plan.source img.source).after (.initial s) asked) →
          reply.result = (img.source.copy q buffer s).result ∧
          reply.buffer = (img.source.copy q buffer s).buffer ∧
          ∀ n, q.check img.size img.format buffer.size = .ok n →
            reply.result = .ok () ∧ ∀ r < q.region.height.toNat,
              reply.buffer.slice? (r * q.stride) n = some (q.rowsOf img.format img.row r) := by
  have hbuild : (Resampling.build img.size img.format horizontal vertical keepsSource :
      Except (SetupError α) Resampling) = _ :=
    Resampling.build_eq_ok_iff.mpr ⟨k, hk, hch, hcv, hwidth, hheight, rfl⟩
  refine ⟨_, withTables_eq_ok_iff.mpr ⟨_, hbuild, rfl⟩, ?_⟩
  intro s asked q buffer reply hreply
  have himg : (img.source : Source σ).Serves (fun _ => True) img.row fun _ => False := img.serves
  have hfits := Resampling.fits_of_build hbuild hhorizontal.confined hvertical.confined
  have hst : Resampling.Stands _ _ _ _ _ := ⟨hfits, rfl, rfl, himg.gives⟩
  have hco := hst.serves.keeps_after (Resampling.coherent_initial (s := s) trivial) ⟨asked, rfl⟩
  obtain ⟨hresult, hbuffer⟩ :=
    hst.answers_of_impulse hhorizontal hvertical himg hco (t := s) trivial q buffer
  subst hreply
  refine ⟨hresult, hbuffer, fun n hq => ?_⟩
  obtain ⟨hok, hlaid⟩ := himg.laid_after trivial [] hq rfl
  rw [hresult, hbuffer]
  exact ⟨hok, fun r hr => hlaid.row r (Nat.zero_le r) hr⟩

/-- The right half of a square is asked for after its lower half. Along one axis both windows
contain both samples. -/
theorem copy_identity_grey_square :
    let img : Image := ⟨⟨2, 2⟩, .grey16, #[1, 2, 3, 4, 5, 6, 7, 8], by decide, by decide⟩
    let below : Chain Float Unit := .base img.source
    let lower : Request × Bytes := (⟨⟨0, 1, 2, 1⟩, 4⟩, #[0, 0, 0, 0])
    ∃ plan, (below.withTables ⟨2, 2, 1, #[⟨0, #[32768, 0]⟩, ⟨0, #[0, 32768]⟩]⟩
        ⟨2, 1, 1, #[⟨0, #[32768]⟩, ⟨1, #[32768]⟩]⟩ false).result = .ok (below.resample plan) ∧
      ((plan.source below.source).copy ⟨⟨1, 0, 1, 2⟩, 3⟩ #[0, 0, 9, 0, 0]
        ((plan.source below.source).after (.initial ()) [lower])).buffer = #[3, 4, 9, 7, 8] := by
  intro img below lower
  have hwide : (TapTable.mk 2 2 1 #[⟨0, #[32768, 0]⟩, ⟨0, #[0, 32768]⟩]).Impulse :=
    ⟨⟨by decide, by decide⟩, rfl, by unfold TapTable.Centered; decide, by decide⟩
  have hnarrow : (TapTable.mk 2 1 1 #[⟨0, #[32768]⟩, ⟨1, #[32768]⟩]).Impulse :=
    ⟨⟨by decide, by decide⟩, rfl, by unfold TapTable.Centered; decide, by decide⟩
  have hkernel : RowKernel.ofFormat? img.format = some ⟨1, .sixteen, .none⟩ := rfl
  obtain ⟨plan, hplan, hsame⟩ := copy_identity (α := Float) (σ := Unit) hkernel hwide hnarrow rfl
    rfl rfl rfl false
  obtain ⟨-, hbuffer, -⟩ := hsame () [lower] ⟨⟨1, 0, 1, 2⟩, 3⟩ #[0, 0, 9, 0, 0] _ rfl
  refine ⟨plan, hplan, hbuffer.trans ?_⟩
  decide +kernel

end Chain

end Resampler
