import Resampler.Proofs.FixedPoint
import Resampler.Proofs.Sharpening

/-!
Where sharpening moves a sample.

A color sample that is far enough from its blurred value is moved away from it, by some
hundredths of the distance, rounded, and stops at the end of its range. All that is wanted of a
sharpened sample follows from the sign and the order of that move (`gain`): it never goes
towards the blurred value, it grows with the amount, and before it is stopped it is off by at
most a half. `Sharpens` says this of a single sample and `sharpenInto?_sharpens` of the rows that
the row kernel writes, where it is also seen that a sample is stored as it was computed.
-/

namespace Resampler.RowKernel

/-- The hundredths of a difference that are added, a half going up. -/
def gain (amount d : Int) : Int := (d * amount + 50) / 100

section Gain

variable {amount amount' d : Int}

theorem abs_gain_sub_le (amount d : Int) : |100 * gain amount d - d * amount| ≤ 50 := by
  rw [gain, abs_le]
  constructor <;> omega

theorem gain_nonneg (hamount : 0 ≤ amount) (hd : 0 ≤ d) : 0 ≤ gain amount d := by
  have hmul := mul_nonneg hd hamount
  unfold gain
  omega

theorem gain_nonpos (hamount : 0 ≤ amount) (hd : d ≤ 0) : gain amount d ≤ 0 := by
  have hmul := mul_nonpos_of_nonpos_of_nonneg hd hamount
  unfold gain
  omega

theorem gain_le_gain (h : amount ≤ amount') (hd : 0 ≤ d) : gain amount d ≤ gain amount' d := by
  have hmul := mul_le_mul_of_nonneg_left h hd
  unfold gain
  omega

theorem gain_le_gain_of_nonpos (h : amount ≤ amount') (hd : d ≤ 0) :
    gain amount' d ≤ gain amount d := by
  have hmul := mul_le_mul_of_nonpos_left h hd
  unfold gain
  omega

end Gain

section Sharpened

variable {limit threshold amount amount' o b : Int}

theorem sharpened_of_lt (h : |o - b| < threshold) :
    sharpened limit threshold amount o b = o := by
  rw [sharpened, Int.natCast_natAbs, if_neg h.not_ge]

theorem sharpened_of_le (h : threshold ≤ |o - b|) :
    sharpened limit threshold amount o b =
      max 0 (min (o + gain amount (o - b)) (max limit o)) := by
  rw [sharpened, Int.natCast_natAbs, if_pos h, gain]

theorem le_sharpened (hamount : 0 ≤ amount) (h : b ≤ o) :
    o ≤ sharpened limit threshold amount o b := by
  have hgain := gain_nonneg hamount (sub_nonneg.mpr h)
  rcases lt_or_ge |o - b| threshold with hsmall | hlarge
  · rw [sharpened_of_lt hsmall]
  · rw [sharpened_of_le hlarge]
    omega

theorem sharpened_le (ho : 0 ≤ o) (hamount : 0 ≤ amount) (h : o ≤ b) :
    sharpened limit threshold amount o b ≤ o := by
  have hgain := gain_nonpos hamount (sub_nonpos.mpr h)
  rcases lt_or_ge |o - b| threshold with hsmall | hlarge
  · rw [sharpened_of_lt hsmall]
  · rw [sharpened_of_le hlarge]
    omega

/-- The larger the amount, the farther a sample is moved. -/
theorem abs_sharpened_sub_le (ho : 0 ≤ o) (hamount : 0 ≤ amount) (h : amount ≤ amount') :
    |sharpened limit threshold amount o b - o| ≤ |sharpened limit threshold amount' o b - o| := by
  rcases lt_or_ge |o - b| threshold with hsmall | hlarge
  · rw [sharpened_of_lt hsmall, sharpened_of_lt hsmall]
  -- both moves go the same way, and the range ends where it did
  rcases le_total b o with hbelow | habove
  · have hmove : o ≤ sharpened limit threshold amount o b := le_sharpened hamount hbelow
    have hmove' : o ≤ sharpened limit threshold amount' o b := le_sharpened (hamount.trans h) hbelow
    have hgain := gain_le_gain h (sub_nonneg.mpr hbelow)
    rw [abs_of_nonneg (sub_nonneg.mpr hmove), abs_of_nonneg (sub_nonneg.mpr hmove'),
      sharpened_of_le hlarge, sharpened_of_le hlarge]
    omega
  · have hmove : sharpened limit threshold amount o b ≤ o := sharpened_le ho hamount habove
    have hmove' : sharpened limit threshold amount' o b ≤ o :=
      sharpened_le ho (hamount.trans h) habove
    have hgain := gain_le_gain_of_nonpos h (sub_nonpos.mpr habove)
    rw [abs_of_nonpos (sub_nonpos.mpr hmove), abs_of_nonpos (sub_nonpos.mpr hmove'),
      sharpened_of_le hlarge, sharpened_of_le hlarge]
    omega

end Sharpened

/-- Rounding takes a sharpened sample at most a half away from where it should be. -/
theorem abs_sharpened_sub_clamp_le {limit o b : Nat} {threshold amount : Int}
    (h : threshold ≤ |(o : Int) - b|) :
    |(sharpened limit threshold amount o b : ℚ) -
      FixedPoint.clamp (o + (o - b) * amount / 100) (max limit o)| ≤ 1 / 2 := by
  have hsample : sharpened limit threshold amount o b =
      (FixedPoint.toSample (o + gain amount (o - b)) (max limit o) : Nat) := by
    rw [sharpened_of_le h, FixedPoint.toSample]
    omega
  have hgain : |(100 : ℚ) * gain amount (o - b) - (o - b) * amount| ≤ 50 := by
    exact_mod_cast abs_gain_sub_le amount (o - b)
  rw [hsample, Int.cast_natCast, FixedPoint.cast_toSample]
  refine (FixedPoint.abs_clamp_sub_clamp_le ..).trans ?_
  rw [abs_le] at hgain ⊢
  push_cast
  constructor <;> linarith

/-- What sharpening by `amount` makes of a color sample `o` with the blurred value `b`. -/
structure Sharpens (threshold ceiling : Nat) (amount : Int) (o b v : Nat) : Prop where
  /-- a small difference is left alone -/
  kept : |(o : Int) - b| < threshold → v = o
  /-- of any other, `amount` hundredths are added again -/
  near : threshold ≤ |(o : Int) - b| →
    |(v : ℚ) - FixedPoint.clamp (o + (o - b) * amount / 100) ceiling| ≤ 1 / 2
  le_of_le : o ≤ b → v ≤ o
  ge_of_ge : b ≤ o → o ≤ v

theorem sharpens_of_eq {limit o b v threshold : Nat} {amount : Int} (hamount : 0 ≤ amount)
    (hv : (v : Int) = sharpened limit threshold amount o b) :
    Sharpens threshold (max limit o) amount o b v where
  kept h := by
    rw [sharpened_of_lt h] at hv
    exact Int.ofNat_inj.mp hv
  near h := by
    rw [← Int.cast_natCast v, hv]
    exact abs_sharpened_sub_clamp_le h
  le_of_le h := by
    have hle : sharpened limit threshold amount o b ≤ o :=
      sharpened_le (Int.natCast_nonneg o) hamount (Int.ofNat_le.mpr h)
    omega
  ge_of_ge h := by
    have hle : (o : Int) ≤ sharpened limit threshold amount o b :=
      le_sharpened hamount (Int.ofNat_le.mpr h)
    omega

/-! Whole rows. -/

/-- Channel `c` is not sharpened because it is alpha. -/
def IsAlpha (k : RowKernel) (c : Nat) : Prop := k.alpha.isPresent ∧ c + 1 = k.channels

/-- What the colors of column `x` are held to: the largest sample that there is, or, where they
are multiplied by it, the alpha of their pixel. -/
def limit (k : RowKernel) (sharp : Bytes) (x : Nat) : Nat :=
  if k.alpha = .premultiplied then k.sample sharp x (k.channels - 1) else k.width.max

variable {k : RowKernel} {sharp blurred : Bytes} {amount : Int} {threshold n : Nat}

/-- The samples of pixels that were written to the start of a buffer. -/
theorem sample_of_blit?_pixels {f : Nat → Nat → Nat} {dst out : Bytes}
    (h : dst.blit? 0 (k.pixels f 0 n) = some out) {x c : Nat} (hx : x < n) (hc : c < k.channels)
    (hmax : f x c ≤ k.width.max) : k.sample out x c = f x c := by
  have hpart := Bytes.part_of_blit? h
  have hload : k.width.load? (out.part (0 * k.bytesPerPixel) (n * k.bytesPerPixel))
      (x * k.channels + c) = k.width.load? out ((0 + x) * k.channels + c) := load?_part hx hc
  have hpixels : k.width.load? (k.pixels f 0 n) (x * k.channels + c) = some (f (0 + x) c) :=
    load?_pixels hx hc (by rwa [Nat.zero_add])
  rw [size_pixels] at hpart
  rw [Nat.zero_mul, Nat.zero_add, hpart, hpixels, Nat.zero_add] at hload
  exact sample_of_load? hload.symm

section Rows

variable (hsharp : sharp.size = n * k.bytesPerPixel)
include hsharp

theorem sharpSample_alpha {x c : Nat} (hx : x < n) (hc : c < k.channels) (h : k.IsAlpha c) :
    k.sharpSample sharp blurred amount threshold x c = k.sample sharp x c := by
  rw [sharpSample, sharpenSample?, load?_eq_sample hsharp hx hc, Option.bind_eq_bind,
    Option.bind_some, if_pos (by simpa [IsAlpha] using h)]
  rfl

variable (hblurred : blurred.size = n * k.bytesPerPixel)
include hblurred

theorem sharpSample_color {x c : Nat} (hx : x < n) (hc : c < k.channels) (h : ¬k.IsAlpha c) :
    (k.sharpSample sharp blurred amount threshold x c : Int) =
      sharpened (k.limit sharp x) (threshold * k.width.stepsPerByte : Nat) amount
        (k.sample sharp x c) (k.sample blurred x c) := by
  have hnonneg : 0 ≤ sharpened (k.limit sharp x) (threshold * k.width.stepsPerByte : Nat) amount
      (k.sample sharp x c) (k.sample blurred x c) := (sharpened_mem (Int.natCast_nonneg _)).1
  rw [← Int.toNat_of_nonneg hnonneg, Int.ofNat_inj]
  simp only [sharpSample, sharpenSample?, load?_eq_sample hsharp hx hc,
    load?_eq_sample hblurred hx hc,
    load?_eq_sample hsharp hx (show k.channels - 1 < k.channels by omega), Option.bind_eq_bind,
    Option.bind_some, limit]
  rw [if_neg (by simpa [IsAlpha] using h)]
  split <;> rfl

theorem abs_sharpSample_sub_le {amount' : Int} (hamount : 0 ≤ amount) (h : amount ≤ amount')
    {x c : Nat} (hx : x < n) (hc : c < k.channels) :
    |(k.sharpSample sharp blurred amount threshold x c : Int) - k.sample sharp x c| ≤
      |(k.sharpSample sharp blurred amount' threshold x c : Int) - k.sample sharp x c| := by
  by_cases halpha : k.IsAlpha c
  · rw [sharpSample_alpha hsharp hx hc halpha, sharpSample_alpha hsharp hx hc halpha]
  · rw [sharpSample_color hsharp hblurred hx hc halpha,
      sharpSample_color hsharp hblurred hx hc halpha]
    exact abs_sharpened_sub_le (Int.natCast_nonneg _) hamount h

/-- Color that did not exceed its alpha is held to it. -/
theorem sharpSample_le_of_le_alpha (hkind : k.alpha = .premultiplied) {x c : Nat} (hx : x < n)
    (hc : c < k.channels) (h : k.sample sharp x c ≤ k.sample sharp x (k.channels - 1)) :
    k.sharpSample sharp blurred amount threshold x c ≤ k.sample sharp x (k.channels - 1) := by
  by_cases halpha : k.IsAlpha c
  · rwa [sharpSample_alpha hsharp hx hc halpha]
  · have hvalue : (k.sharpSample sharp blurred amount threshold x c : Int) = _ :=
      sharpSample_color hsharp hblurred hx hc halpha
    have hmem : sharpened (k.limit sharp x) (threshold * k.width.stepsPerByte : Nat) amount
        (k.sample sharp x c) (k.sample blurred x c) ≤
          max (k.limit sharp x : Int) (k.sample sharp x c) :=
      (sharpened_mem (Int.natCast_nonneg _)).2
    rw [limit, if_pos hkind] at hvalue hmem
    omega

/-- Sharpening into a buffer fills the pixels that it has and nothing else. -/
theorem exists_sharpenInto? (hpos : 0 < k.bytesPerPixel) (amount : Int) (threshold : Nat)
    {dst : Bytes} (hdst : dst.size / k.bytesPerPixel ≤ n) :
    ∃ out, k.sharpenInto? sharp blurred amount threshold dst = some out ∧ out.size = dst.size ∧
      (∀ i, dst.size / k.bytesPerPixel * k.bytesPerPixel ≤ i → out[i]? = dst[i]?) ∧
      ∀ x < dst.size / k.bytesPerPixel, ∀ c < k.channels,
        k.sample out x c = k.sharpSample sharp blurred amount threshold x c := by
  have hfit : 0 + (k.pixels (k.sharpSample sharp blurred amount threshold) 0
      (dst.size / k.bytesPerPixel)).size ≤ dst.size := by
    rw [size_pixels, Nat.zero_add]
    exact Nat.div_mul_le_self ..
  obtain ⟨out, hout⟩ := Option.isSome_iff_exists.mp (Bytes.blit?_isSome_iff.mpr hfit)
  refine ⟨out, (sharpenInto?_eq hpos hsharp hblurred hdst).trans hout, Bytes.size_of_blit? hout,
    fun i hi => ?_, fun x hx c hc => sample_of_blit?_pixels hout hx hc (sharpSample_le ..)⟩
  rw [Bytes.getElem?_of_blit? hout, size_pixels, if_neg (by omega)]

end Rows

/-- Neither the product of a difference and an amount nor what is added for rounding leaves a
64-bit word. -/
theorem fits64_mul_add (k : RowKernel) (sharp blurred : Bytes) (x c : Nat) (amount : Int32) :
    Word.Fits64
      (((k.sample sharp x c : Int) - k.sample blurred x c) * amount.toInt + 50) := by
  have hsharp := (k.sample_le sharp x c).trans k.width.max_le
  have hblurred := (k.sample_le blurred x c).trans k.width.max_le
  have hdiff : |(k.sample sharp x c : Int) - k.sample blurred x c| ≤ 65535 := by
    rw [abs_le]
    omega
  have hamount : |amount.toInt| ≤ 2147483648 := by
    have hlo := amount.le_toInt
    have hhi := amount.toInt_lt
    rw [abs_le]
    omega
  have hmul := mul_le_mul hdiff hamount (abs_nonneg _) (by decide)
  rw [← abs_mul, abs_le] at hmul
  unfold Word.Fits64
  omega

/-- Sharpening two rows of whole pixels into a buffer. Alpha is copied, and each color sample is
moved as `Sharpens` says; it is computed without leaving a word, and what is stored is what was
computed. A larger amount moves no sample less, and color that did not exceed its alpha does not
exceed it afterwards. -/
theorem sharpenInto?_sharpens {format : PixelFormat} (hk : ofFormat? format = some k)
    (hsharp : sharp.size = n * k.bytesPerPixel) (hblurred : blurred.size = n * k.bytesPerPixel)
    {dst : Bytes} (hdst : dst.size / k.bytesPerPixel ≤ n) {amount : Int32} (hamount : 0 ≤ amount)
    (threshold : UInt8) :
    ∃ out, k.sharpenInto? sharp blurred amount.toInt threshold.toNat dst = some out ∧
      out.size = dst.size ∧
      (∀ i, dst.size / k.bytesPerPixel * k.bytesPerPixel ≤ i → out[i]? = dst[i]?) ∧
      ∀ x < dst.size / k.bytesPerPixel,
        (∀ c < k.channels, k.IsAlpha c → k.sample out x c = k.sample sharp x c) ∧
        (∀ c < k.channels, ¬k.IsAlpha c →
          Sharpens (threshold.toNat * k.width.stepsPerByte)
            (max (k.limit sharp x) (k.sample sharp x c)) amount.toInt (k.sample sharp x c)
            (k.sample blurred x c) (k.sample out x c) ∧
          (k.sample out x c : Int) =
            sharpened (k.limit sharp x) (threshold.toNat * k.width.stepsPerByte : Nat)
              amount.toInt (k.sample sharp x c) (k.sample blurred x c) ∧
          k.sample out x c ≤ k.width.max ∧
          Word.Fits64
            (((k.sample sharp x c : Int) - k.sample blurred x c) * amount.toInt + 50)) ∧
        (∀ amount', amount ≤ amount' → ∀ out',
          k.sharpenInto? sharp blurred amount'.toInt threshold.toNat dst = some out' →
            ∀ c < k.channels, |(k.sample out x c : Int) - k.sample sharp x c| ≤
              |(k.sample out' x c : Int) - k.sample sharp x c|) ∧
        (k.alpha = .premultiplied →
          (∀ c < k.channels, k.sample sharp x c ≤ k.sample sharp x (k.channels - 1)) →
            ∀ c < k.channels, k.sample out x c ≤ k.sample out x (k.channels - 1)) := by
  have hpos : 0 < k.bytesPerPixel := bytesPerPixel_pos_of_ofFormat? hk
  have hamount' : 0 ≤ amount.toInt := Int32.le_iff_toInt_le.mp hamount
  obtain ⟨out, hout, hsize, hrest, hsample⟩ :=
    exists_sharpenInto? hsharp hblurred hpos amount.toInt threshold.toNat hdst
  refine ⟨out, hout, hsize, hrest, fun x hx => ?_⟩
  have hxn : x < n := Nat.lt_of_lt_of_le hx hdst
  refine ⟨fun c hc halpha => ?_, fun c hc hcolor => ?_, fun amount' h out' hout' c hc => ?_,
    fun hkind hrow c hc => ?_⟩
  · rw [hsample x hx c hc, sharpSample_alpha hsharp hxn hc halpha]
  · have hvalue : (k.sharpSample sharp blurred amount.toInt threshold.toNat x c : Int) = _ :=
      sharpSample_color hsharp hblurred hxn hc hcolor
    rw [hsample x hx c hc]
    exact ⟨sharpens_of_eq hamount' hvalue, hvalue, sharpSample_le .., k.fits64_mul_add ..⟩
  · obtain ⟨_, heq, -, -, hsample'⟩ :=
      exists_sharpenInto? hsharp hblurred hpos amount'.toInt threshold.toNat hdst
    rw [hout', Option.some.injEq] at heq
    subst heq
    rw [hsample x hx c hc, hsample' x hx c hc]
    exact abs_sharpSample_sub_le hsharp hblurred hamount' (Int32.le_iff_toInt_le.mp h) hxn hc
  · have hlast : k.channels - 1 < k.channels := by omega
    have halpha : k.IsAlpha (k.channels - 1) := ⟨by rw [hkind]; rfl, by omega⟩
    rw [hsample x hx c hc, hsample x hx _ hlast, sharpSample_alpha hsharp hxn hlast halpha]
    exact sharpSample_le_of_le_alpha hsharp hblurred hkind hxn hc (hrow c hc)

/-- A pixel with a color above its alpha, sharpened into a buffer with a byte to spare. -/
theorem sharpenInto?_sharpens_bright_pixel :
    let k : RowKernel := ⟨4, .eight, .premultiplied⟩
    ∃ out, k.sharpenInto? #[130, 20, 100, 120] #[160, 40, 100, 10] 50 5 #[0, 0, 0, 0, 9] =
        some out ∧ out[4]? = some 9 ∧ k.sample out 0 3 = 120 ∧
      Sharpens 5 130 50 130 160 (k.sample out 0 0) ∧ Sharpens 5 120 50 20 40 (k.sample out 0 1) := by
  intro k
  have hk : ofFormat? .pbgra32 = some k := rfl
  have hsharp : (#[130, 20, 100, 120] : Bytes).size = 1 * k.bytesPerPixel := rfl
  have hblurred : (#[160, 40, 100, 10] : Bytes).size = 1 * k.bytesPerPixel := rfl
  have hdst : (#[0, 0, 0, 0, 9] : Bytes).size / k.bytesPerPixel ≤ 1 := by decide
  obtain ⟨out, hout, -, hrest, hpixels⟩ :=
    sharpenInto?_sharpens hk hsharp hblurred hdst (show (0 : Int32) ≤ 50 by decide) 5
  obtain ⟨halpha, hcolor, -⟩ := hpixels 0 (by decide)
  have hnot (c : Nat) (hc : c < 3) : ¬k.IsAlpha c := fun h => by
    have hlast : c + 1 = 4 := h.2
    omega
  exact ⟨out, hout, hrest 4 (by decide), halpha 3 (by decide) ⟨rfl, rfl⟩,
    (hcolor 0 (by decide) (hnot 0 (by decide))).1, (hcolor 1 (by decide) (hnot 1 (by decide))).1⟩

end Resampler.RowKernel
