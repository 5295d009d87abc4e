import Resampler.Proofs.Convolution.Monotone
import Resampler.Proofs.Stage.Sampled

/-!
Premultiplied images.

In a premultiplied image no color exceeds the alpha of its pixel. An average keeps that,
since alpha is averaged with the weights of the colors and averages keep the order of what they
are made of, roundings included. Sharpening keeps it whatever the blur, since it leaves alpha
alone and holds the colors to it. So chains of stages that average or sharpen make
premultiplied images of premultiplied images.
-/

namespace Resampler

namespace RowKernel

/-- No color of the first `n` pixels of a row exceeds the alpha of its pixel, the last of its
samples. -/
def Premultiplied (k : RowKernel) (n : Nat) (row : Bytes) : Prop :=
  ∀ x < n, ∀ c < k.channels, ∃ color ∈ k.width.load? row (x * k.channels + c),
    ∃ alpha ∈ k.width.load? row (x * k.channels + (k.channels - 1)), color ≤ alpha

instance (k : RowKernel) (n : Nat) (row : Bytes) : Decidable (k.Premultiplied n row) :=
  inferInstanceAs (Decidable (∀ _ < _, _))

variable {k : RowKernel} {n : Nat} {row : Bytes}

theorem Premultiplied.sample_le (h : k.Premultiplied n row) {x c : Nat} (hx : x < n)
    (hc : c < k.channels) : k.sample row x c ≤ k.sample row x (k.channels - 1) := by
  obtain ⟨color, hcolor, alpha, halpha, hle⟩ := h x hx c hc
  rwa [sample, sample, hcolor, halpha, Option.getD_some, Option.getD_some]

/-- A run of the pixels of a premultiplied row is premultiplied. -/
theorem Premultiplied.part (h : k.Premultiplied n row) {x m : Nat} (hx : x + m ≤ n) :
    k.Premultiplied m (row.part (x * k.bytesPerPixel) (m * k.bytesPerPixel)) := by
  intro j hj c hc
  rw [load?_part hj hc, load?_part hj (by omega)]
  exact h (x + j) (by omega) c hc

theorem premultiplied_pixels {f : Nat → Nat → Nat} (hmax : ∀ x c, f x c ≤ k.width.max)
    (h : ∀ x < n, ∀ c < k.channels, f x c ≤ f x (k.channels - 1)) :
    k.Premultiplied n (k.pixels f 0 n) := by
  intro x hx c hc
  refine ⟨f (0 + x) c, load?_pixels hx hc (hmax _ _), f (0 + x) (k.channels - 1),
    load?_pixels hx (by omega) (hmax _ _), ?_⟩
  rw [Nat.zero_add]
  exact h x hx c hc

/-- A sharpened color stays below an alpha that it was below, whatever the blurred row. -/
theorem sharpSample_le_alpha (hkind : k.alpha = .premultiplied) {sharp : Bytes}
    (h : k.Premultiplied n sharp) (blurred : Bytes) (amount : Int) (threshold : Nat) {x c : Nat}
    (hx : x < n) (hc : c < k.channels) :
    k.sharpSample sharp blurred amount threshold x c ≤
      k.sharpSample sharp blurred amount threshold x (k.channels - 1) := by
  obtain ⟨color, hcolor, alpha, halpha, hle⟩ := h x hx c hc
  rw [Option.mem_def] at hcolor halpha
  have hpresent : k.alpha.isPresent = true := by
    rw [hkind]
    rfl
  have hlast : k.channels - 1 + 1 = k.channels := by omega
  have hkept : k.sharpSample sharp blurred amount threshold x (k.channels - 1) = alpha := by
    simp [sharpSample, sharpenSample?, halpha, hpresent, hlast]
  rw [hkept, sharpSample, sharpenSample?, hcolor, Option.bind_eq_bind, Option.bind_some]
  split
  · exact hle
  -- any other sample is held to the larger of itself and its alpha, which is its alpha
  · cases k.width.load? blurred (x * k.channels + c) with
    | none => exact Nat.zero_le _
    | some b =>
      have hmem := (sharpened_mem (Int.natCast_nonneg color) :
        _ ∧ sharpened alpha (threshold * k.width.stepsPerByte : Nat) amount color b ≤ _)
      simp only [halpha, Option.bind_some, Option.pure_def, Option.getD_some]
      omega

end RowKernel

namespace TapTable

/-- The tables that average: made for a change of size with weights that alpha shares with the
colors, none of them negative. That no sum of them is more than a 32-bit word holds says that
nothing overflowed when they were rounded. -/
inductive Averages : TapTable → Prop where
  | scale {α : Type} [Scalar α] {input output : UInt32} {channels : Nat} {f : Interpolation α}
      {t : TapTable} (h : TapTable.scale input.toNat output.toNat channels false f = .ok t)
      (hnonneg : ∀ i < t.outputSize, ∀ j < t.tapCount, ∀ c < t.channels, 0 ≤ t.weight i j c)
      (hsums : t.SumsFit) : Averages t

variable {t : TapTable} {i c c' : Nat}

theorem Averages.averagesAt (h : t.Averages) (hi : i < t.outputSize) (hc : c < t.channels) :
    t.AveragesAt i c := by
  cases h with
  | scale h hnonneg hsums =>
    exact ⟨fun j hj => hnonneg i hi j hj c hc, (Made.scale h).sumsFit_iff.mp hsums i hi c hc⟩

theorem Averages.alikeAt (h : t.Averages) (hi : i < t.outputSize) (hc : c < t.channels)
    (hc' : c' < t.channels) : t.AlikeAt i c c' := by
  cases h with
  | scale h =>
    have hwf := wellFormed_scale h
    rw [hwf.outputSize_eq] at hi
    rw [hwf.channels_eq] at hc hc'
    exact fun j hj => hwf.alike i hi j hj c hc c' hc'

end TapTable

/-- The tables of a stage that averages. -/
def Resampling.Averages (plan : Resampling) : Prop :=
  plan.horizontal.Averages ∧ plan.vertical.Averages

/-- No color of a resampled image exceeds its alpha where none does in the source. -/
theorem Resampling.convolved_le_alpha {plan : Resampling} (hfits : plan.Fits)
    (havg : plan.Averages) {rows : Nat → Bytes}
    (hrows : ∀ s < plan.sourceSize.height.toNat,
      plan.kernel.Premultiplied plan.sourceSize.width.toNat (rows s))
    {y x c : Nat} (hy : y < plan.vertical.outputSize) (hx : x < plan.horizontal.outputSize)
    (hc : c < plan.kernel.channels) :
    plan.convolved rows y x c ≤ plan.convolved rows y x (plan.kernel.channels - 1) := by
  have hlast : plan.kernel.channels - 1 < plan.kernel.channels := by omega
  have hch := hfits.horizontal_channels
  have hcv := hfits.vertical_channels
  refine convolved_le_convolved (havg.1.averagesAt hx (hch ▸ hc)) (havg.2.averagesAt hy (hcv ▸ hc))
    (havg.1.alikeAt hx (hch ▸ hc) (hch ▸ hlast)) (havg.2.alikeAt hy (hcv ▸ hc) (hcv ▸ hlast))
    fun s hs i hi => ?_
  have hdown := hfits.vertical.lt_of_covers hy hs
  have hright := hfits.horizontal.lt_of_covers hx hi
  rw [hfits.height_eq] at hdown
  rw [hfits.width_eq] at hright
  exact (hrows s hdown).sample_le hright hc

theorem Sharpening.sharpened_le_alpha {α : Type} {plan : Sharpening α}
    (hsize : plan.blur.size = plan.blur.sourceSize)
    (hkind : plan.blur.kernel.alpha = .premultiplied) {rows : Nat → Bytes}
    (hrows : ∀ s < plan.blur.sourceSize.height.toNat,
      plan.blur.kernel.Premultiplied plan.blur.sourceSize.width.toNat (rows s))
    {y x c : Nat} (hy : y < plan.blur.size.height.toNat) (hx : x < plan.blur.size.width.toNat)
    (hc : c < plan.blur.kernel.channels) :
    plan.sharpened rows y x c ≤ plan.sharpened rows y x (plan.blur.kernel.channels - 1) := by
  rw [hsize] at hy hx
  exact RowKernel.sharpSample_le_alpha hkind (hrows y hy) _ _ _ hx hc

namespace Chain

variable {α σ : Type} [Analytic α] {c : Chain α σ}

/-- A stage that averages or sharpens makes premultiplied rows of premultiplied rows. -/
theorem Takes.premultiplied_picture {below : Chain α σ} {stage : Stage α}
    (hstage : below.Takes stage) (havg : ∀ plan, stage = .resampling plan → plan.Averages)
    (hkind : stage.tables.kernel.alpha = .premultiplied) {rows : Nat → Bytes}
    (hrows : ∀ y < below.size.height.toNat,
      stage.tables.kernel.Premultiplied below.size.width.toNat (rows y)) :
    ∀ y < stage.tables.size.height.toNat,
      stage.tables.kernel.Premultiplied stage.tables.size.width.toNat (stage.picture rows y) := by
  have hsize : below.size = stage.tables.sourceSize := hstage.seated.tables.size_eq
  rw [hsize] at hrows
  intro y hy
  rw [Stage.picture_eq]
  refine RowKernel.premultiplied_pixels (stage.sample_le rows y) fun x hx c hc => ?_
  have hseat := hstage.seated
  cases stage with
  | resampling plan =>
    exact Resampling.convolved_le_alpha hseat.tables.fits (havg plan rfl) hrows
      (Nat.lt_of_lt_of_le hy plan.height_le) (Nat.lt_of_lt_of_le hx plan.width_le) hc
  | sharpening plan =>
    exact Sharpening.sharpened_le_alpha (Sharpening.Seated.size_eq hseat) hkind hrows hy hx hc

/-- Every resampling stage of the chain averages. -/
def Averages : Chain α σ → Prop
  | base _ => True
  | resample below plan => below.Averages ∧ plan.Averages
  | sharpen below _ => below.Averages

/-- A chain that averages or sharpens makes premultiplied rows of premultiplied rows. -/
theorem Built.premultiplied_picture (hc : c.Built) (havg : c.Averages) {k : RowKernel}
    (hk : RowKernel.ofFormat? c.bottom.format = some k) (hkind : k.alpha = .premultiplied)
    {rows : Nat → Bytes} (hrows : ∀ y < c.bottom.size.height.toNat,
      k.Premultiplied c.bottom.size.width.toNat (rows y)) :
    ∀ y < c.size.height.toNat, k.Premultiplied c.size.width.toNat (c.picture rows y) := by
  induction hc with
  | base src => exact hrows
  | resample hbelow hplan ih =>
    have hstage := Takes.resampling hplan
    have hbelowrows := ih havg.1 hk hrows
    obtain rfl := hstage.kernel_eq hbelow hk
    refine hstage.premultiplied_picture ?_ hkind hbelowrows
    rintro _ ⟨⟩
    exact havg.2
  | sharpen hbelow hplan ih =>
    have hstage := Takes.sharpening hplan
    have hbelowrows := ih havg hk hrows
    obtain rfl := hstage.kernel_eq hbelow hk
    exact hstage.premultiplied_picture (fun _ h => nomatch h) hkind hbelowrows

end Chain

end Resampler
