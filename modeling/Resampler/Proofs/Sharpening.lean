import Resampler.Proofs.Pixel.Packing

/-!
The sharpening of rows.

A sharpened sample depends on one pixel of the sharp row and the same pixel of the
blurred row, so that sharpening the same part of both gives that part of the
sharpened row. `sharpSample` is the sample where there is one, and `sharpenRow?_part`
says that the row kernel makes these of every part of two rows of equal width.
-/

namespace Resampler.RowKernel

variable {k : RowKernel} {sharp blurred : Bytes} {amount : Int} {threshold n : Nat}

/-- The sharpened sample of channel `c` in column `x`, zero where there is none. -/
def sharpSample (k : RowKernel) (sharp blurred : Bytes) (amount : Int) (threshold x c : Nat) :
    Nat :=
  (k.sharpenSample? sharp blurred amount threshold x c).getD 0

/-- Two rows of equal width have a sharpened sample for each of their own. -/
theorem sharpenSample?_eq_sharpSample (hsharp : sharp.size = n * k.bytesPerPixel)
    (hblurred : blurred.size = n * k.bytesPerPixel) {x c : Nat} (hx : x < n) (hc : c < k.channels) :
    k.sharpenSample? sharp blurred amount threshold x c =
      some (k.sharpSample sharp blurred amount threshold x c) := by
  suffices (k.sharpenSample? sharp blurred amount threshold x c).isSome by
    obtain ⟨v, hv⟩ := Option.isSome_iff_exists.mp this
    rw [sharpSample, hv, Option.getD_some]
  simp only [sharpenSample?, load?_eq_sample hsharp hx hc, load?_eq_sample hblurred hx hc,
    load?_eq_sample hsharp hx (show k.channels - 1 < k.channels by omega), Option.bind_eq_bind,
    Option.bind_some]
  split
  · rfl
  · split <;> rfl

/-- Sharpening keeps a sample between 0 and the larger of itself and the limit. -/
theorem sharpened_mem {limit threshold amount o b : Int} (ho : 0 ≤ o) :
    0 ≤ sharpened limit threshold amount o b ∧
      sharpened limit threshold amount o b ≤ max limit o := by
  unfold sharpened
  split
  · omega
  · exact ⟨ho, le_max_right _ _⟩

/-- Where blurring changes nothing, nor does sharpening. -/
theorem sharpened_self {limit threshold amount o : Int} (ho : 0 ≤ o) :
    sharpened limit threshold amount o o = o := by
  simp only [sharpened, sub_self, zero_mul, zero_add]
  split
  · omega
  · rfl

theorem sharpSample_le (k : RowKernel) (sharp blurred : Bytes) (amount : Int)
    (threshold x c : Nat) : k.sharpSample sharp blurred amount threshold x c ≤ k.width.max := by
  unfold sharpSample
  cases h : k.sharpenSample? sharp blurred amount threshold x c with
  | none => exact Nat.zero_le _
  | some v =>
    obtain ⟨o, ho, h⟩ := Option.bind_eq_some_iff.mp h
    have hole := SampleWidth.load?_le ho
    split at h
    · cases h
      exact hole
    · obtain ⟨b, -, h⟩ := Option.bind_eq_some_iff.mp h
      -- the limit is the largest sample there is or a sample of the row
      have hlimit : ∃ limit : Nat, limit ≤ k.width.max ∧ v = (sharpened limit
          (threshold * k.width.stepsPerByte : Nat) amount o b).toNat := by
        split at h
        · obtain ⟨limit, hlimit, h⟩ := Option.bind_eq_some_iff.mp h
          exact ⟨limit, SampleWidth.load?_le hlimit, (Option.some.inj h).symm⟩
        · exact ⟨_, le_rfl, (Option.some.inj h).symm⟩
      obtain ⟨limit, hlimit, rfl⟩ := hlimit
      have hmem := (sharpened_mem (Int.natCast_nonneg o) :
        _ ∧ sharpened limit (threshold * k.width.stepsPerByte : Nat) amount o b ≤ _)
      rw [Option.getD_some]
      omega

/-- A sample that the blur leaves as it is, sharpening leaves as it is. -/
theorem sharpSample_of_eq (hsharp : sharp.size = n * k.bytesPerPixel)
    (hblurred : blurred.size = n * k.bytesPerPixel) {x c : Nat} (hx : x < n)
    (hc : c < k.channels) (heq : k.sample blurred x c = k.sample sharp x c) :
    k.sharpSample sharp blurred amount threshold x c = k.sample sharp x c := by
  rw [sharpSample]
  simp only [sharpenSample?, load?_eq_sample hsharp hx hc, load?_eq_sample hblurred hx hc,
    load?_eq_sample hsharp hx (show k.channels - 1 < k.channels by omega), Option.bind_eq_bind,
    Option.bind_some, heq, sharpened_self (Int.natCast_nonneg _)]
  split
  · rfl
  · split <;> rfl

theorem sharpenSample?_part {x j c : Nat} (hj : j < n) (hc : c < k.channels) :
    k.sharpenSample? (sharp.part (x * k.bytesPerPixel) (n * k.bytesPerPixel))
        (blurred.part (x * k.bytesPerPixel) (n * k.bytesPerPixel)) amount threshold j c =
      k.sharpenSample? sharp blurred amount threshold (x + j) c := by
  simp only [sharpenSample?, load?_part hj hc,
    load?_part hj (show k.channels - 1 < k.channels by omega)]

/-- Sharpening writes its samples over as many pixels as the buffer has, where both rows have as
many. -/
theorem sharpenInto?_eq (hpos : 0 < k.bytesPerPixel) (hsharp : sharp.size = n * k.bytesPerPixel)
    (hblurred : blurred.size = n * k.bytesPerPixel) {dst : Bytes}
    (hdst : dst.size / k.bytesPerPixel ≤ n) :
    k.sharpenInto? sharp blurred amount threshold dst =
      dst.blit? 0 (k.pixels (k.sharpSample sharp blurred amount threshold) 0
        (dst.size / k.bytesPerPixel)) := by
  unfold sharpenInto?
  rw [mapM_eq_pure_map (g := fun i =>
    k.sharpSample sharp blurred amount threshold (i / k.channels) (i % k.channels))]
  · simp only [Option.pure_def, Option.bind_eq_bind, Option.bind_some]
    rw [SampleWidth.storeFrom?_eq_blit? _ _ _ _ (by simp), Nat.zero_mul]
    simp only [pixels, Nat.zero_add]
  · intro i hi
    have hlt := List.mem_range.mp hi
    have hchannels : 0 < k.channels := Nat.pos_of_mul_pos_right hpos
    exact sharpenSample?_eq_sharpSample hsharp hblurred
      (Nat.lt_of_lt_of_le (div_lt_of_lt_mul hlt) hdst) (Nat.mod_lt _ hchannels)

theorem sharpenRow?_eq (hpos : 0 < k.bytesPerPixel) (hsharp : sharp.size = n * k.bytesPerPixel)
    (hblurred : blurred.size = n * k.bytesPerPixel) :
    k.sharpenRow? sharp blurred amount threshold =
      some (k.pixels (k.sharpSample sharp blurred amount threshold) 0 n) := by
  have hn : (Array.replicate sharp.size (0 : UInt8)).size / k.bytesPerPixel = n := by
    rw [Array.size_replicate, hsharp, Nat.mul_div_cancel _ hpos]
  rw [sharpenRow?, sharpenInto?_eq hpos hsharp hblurred hn.le, hn, Bytes.blit?_zero]
  rw [size_pixels, Array.size_replicate, hsharp]

/-- The row kernel makes of a part of two rows that part of the sharpened row. -/
theorem sharpenRow?_part (hpos : 0 < k.bytesPerPixel) {x width : Nat} (hx : x + width ≤ n)
    (hsharp : sharp.size = n * k.bytesPerPixel) (hblurred : blurred.size = n * k.bytesPerPixel) :
    k.sharpenRow? (sharp.part (x * k.bytesPerPixel) (width * k.bytesPerPixel))
        (blurred.part (x * k.bytesPerPixel) (width * k.bytesPerPixel)) amount threshold =
      some (k.pixels (k.sharpSample sharp blurred amount threshold) x width) := by
  have hroom : x * k.bytesPerPixel + width * k.bytesPerPixel ≤ n * k.bytesPerPixel := by
    rw [← Nat.add_mul]
    exact Nat.mul_le_mul_right _ hx
  rw [sharpenRow?_eq hpos (Bytes.size_part (by rw [hsharp]; exact hroom))
    (Bytes.size_part (by rw [hblurred]; exact hroom)), Option.some.injEq]
  refine pixels_congr fun j hj c hc => ?_
  rw [Nat.zero_add, sharpSample, sharpSample, sharpenSample?_part hj hc]

end Resampler.RowKernel
