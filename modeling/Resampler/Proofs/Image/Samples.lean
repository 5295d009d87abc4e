import Resampler.Proofs.Image
import Resampler.Proofs.Pixel.Packing

/-!
Images by their 16-bit samples.

Two readers of the same bytes must agree. An image takes its bytes apart into pairs, from the first
pair to the last, and a row kernel asks for the two bytes of one sample by its place. Both read the
same sample at every place (`load?_sixteen`), and neither reads one that is not there. Putting
samples together again gives the bytes that they were taken from, except for an odd last byte.

A sample is stored by replacing its two bytes, so that no other sample is changed (`Replaced`).
-/

namespace Resampler

namespace Bytes

/-! One sample and its two bytes. -/

theorem toNat_pair (lo hi : UInt8) :
    (lo.toUInt16 + (hi.toUInt16 <<< 8)).toNat = lo.toNat + 256 * hi.toNat := by
  have hlo := lo.toNat_lt
  have hhi := hi.toNat_lt
  simp only [UInt16.toNat_add, UInt16.toNat_shiftLeft, UInt8.toNat_toUInt16, UInt16.reduceToNat,
    Nat.reduceMod, Nat.shiftLeft_eq]
  omega

theorem toNat_low (v : UInt16) : v.toUInt8.toNat = v.toNat % 256 := UInt16.toNat_toUInt8 v

theorem toNat_high (v : UInt16) : (v >>> 8).toUInt8.toNat = v.toNat / 256 := by
  have hv := v.toNat_lt
  simp only [UInt16.toNat_toUInt8, UInt16.toNat_shiftRight, UInt16.reduceToNat, Nat.reduceMod,
    Nat.shiftRight_eq_div_pow]
  omega

theorem pair_of_bytes (v : UInt16) :
    v.toUInt8.toUInt16 + ((v >>> 8).toUInt8.toUInt16 <<< 8) = v := by
  rw [← UInt16.toNat_inj, toNat_pair, toNat_low, toNat_high]
  omega

theorem low_of_pair (lo hi : UInt8) : (lo.toUInt16 + (hi.toUInt16 <<< 8)).toUInt8 = lo := by
  have hlo := lo.toNat_lt
  rw [← UInt8.toNat_inj, toNat_low, toNat_pair]
  omega

theorem high_of_pair (lo hi : UInt8) :
    ((lo.toUInt16 + (hi.toUInt16 <<< 8)) >>> 8).toUInt8 = hi := by
  have hlo := lo.toNat_lt
  rw [← UInt8.toNat_inj, toNat_high, toNat_pair]
  omega

/-! Runs of samples. -/

@[simp] theorem toSamples_ofSamples (samples : List UInt16) :
    (ofSamples samples).toSamples = samples := by
  simp only [toSamples, ofSamples]
  induction samples with
  | nil => rfl
  | cons v samples ih =>
    simp only [List.flatMap_cons, List.cons_append, List.nil_append, toSamples.go, ih,
      pair_of_bytes]

/-- Where no pair is left, there is at most a single byte. -/
theorem eq_nil_or_singleton {bytes : List UInt8}
    (hshort : ∀ lo hi rest, bytes = lo :: hi :: rest → False) :
    bytes = [] ∨ ∃ lo, bytes = [lo] := by
  rcases bytes with _ | ⟨lo, _ | ⟨hi, rest⟩⟩
  · exact .inl rfl
  · exact .inr ⟨lo, rfl⟩
  · exact (hshort lo hi rest rfl).elim

theorem ofSamples_toSamples {b : Bytes} (h : b.size % 2 = 0) : ofSamples b.toSamples = b := by
  obtain ⟨bytes⟩ := b
  simp only [List.size_toArray] at h
  simp only [toSamples, ofSamples]
  congr 1
  fun_induction toSamples.go bytes with
  | case1 lo hi rest ih =>
    rw [List.flatMap_cons, low_of_pair, high_of_pair, ih (by simp at h; omega)]
    rfl
  | case2 bytes hshort =>
    obtain rfl | ⟨lo, rfl⟩ := eq_nil_or_singleton hshort
    · rfl
    · simp at h

theorem getElem?_go (bytes : List UInt8) (i : Nat) :
    ((toSamples.go bytes)[i]?).map (·.toNat) =
      match bytes[2 * i]?, bytes[2 * i + 1]? with
      | some lo, some hi => some (lo.toNat + 256 * hi.toNat)
      | _, _ => none := by
  fun_induction toSamples.go bytes generalizing i with
  | case1 lo hi rest ih =>
    cases i with
    | zero => exact congrArg some (toNat_pair lo hi)
    | succ i =>
      rw [List.getElem?_cons_succ, ih i]
      rfl
  | case2 bytes hshort =>
    obtain rfl | ⟨lo, rfl⟩ := eq_nil_or_singleton hshort <;> simp

end Bytes

namespace SampleWidth

/-- A row kernel reads the samples that a run of bytes is taken apart into. -/
theorem load?_sixteen (b : Bytes) (i : Nat) :
    sixteen.load? b i = (b.toSamples[i]?).map (·.toNat) := by
  rw [Bytes.toSamples, Bytes.getElem?_go, Array.getElem?_toList, Array.getElem?_toList]
  rfl

/-- `after` is `row` with the two bytes of sample `i` replaced by those of `v`. -/
structure Replaced (row : Bytes) (i v : Nat) (after : Bytes) : Prop where
  size_eq : after.size = row.size
  low_eq : after[2 * i]? = some (UInt8.ofNat v)
  high_eq : after[2 * i + 1]? = some (UInt8.ofNat (v / 256))
  rest_eq : ∀ j, j ≠ 2 * i → j ≠ 2 * i + 1 → after[j]? = row[j]?

theorem store?_sixteen_eq_none {row : Bytes} {i : Nat} (h : row.size ≤ 2 * i + 1) (v : Nat) :
    sixteen.store? row i v = none :=
  if_neg (Nat.not_lt.mpr h)

theorem exists_store?_sixteen {row : Bytes} {i : Nat} (h : 2 * i + 1 < row.size) (v : Nat) :
    ∃ after, sixteen.store? row i v = some after ∧ Replaced row i v after := by
  refine ⟨_, if_pos h, ?_⟩
  constructor
  case size_eq => simp
  case low_eq =>
    rw [Array.getElem?_setIfInBounds_ne (by omega),
      Array.getElem?_setIfInBounds_self_of_lt (by omega)]
  case high_eq =>
    rw [Array.getElem?_setIfInBounds_self_of_lt (by simpa using h)]
  case rest_eq =>
    intro j hlow hhigh
    rw [Array.getElem?_setIfInBounds_ne (Ne.symm hhigh),
      Array.getElem?_setIfInBounds_ne (Ne.symm hlow)]

namespace Replaced

variable {row after : Bytes} {i v : Nat}

/-- What is read again are the low 16 bits of what was stored. -/
theorem load?_self (h : Replaced row i v after) :
    sixteen.load? after i = some (v % 65536) := by
  simp only [load?, h.low_eq, h.high_eq, UInt8.toNat_ofNat']
  congr 1
  omega

theorem load?_of_ne (h : Replaced row i v after) {j : Nat} (hj : j ≠ i) :
    sixteen.load? after j = sixteen.load? row j := by
  simp only [load?]
  rw [h.rest_eq (2 * j) (by omega) (by omega), h.rest_eq (2 * j + 1) (by omega) (by omega)]

end Replaced

end SampleWidth

namespace Image

variable {size : Size} {format : PixelFormat}

/-- Bytes make the one image that has them, if there is one. -/
theorem ofBytes_eq_ok_iff {data : Bytes} {img : Image} :
    ofBytes size format data = .ok img ↔
      img.size = size ∧ img.format = format ∧ img.data = data := by
  constructor
  · intro h
    unfold ofBytes ifHeld at h
    split at h
    case isTrue => cases h
    case isFalse =>
      split at h
      case isFalse => cases h
      case isTrue =>
        split at h
        case isFalse => cases h
        case isTrue =>
          cases h
          exact ⟨rfl, rfl, rfl⟩
  · rintro ⟨rfl, rfl, rfl⟩
    have hheld := img.held
    have hword := Bytes.limit_lt
    rw [ofBytes, ifHeld, if_neg (by omega), dif_pos img.held, dif_pos img.packed]

section Sixteen

variable (h : format.depth = .integer .sixteen)
include h

theorem ofSamples_eq_ok_iff {samples : List UInt16} {img : Image} :
    ofSamples size format samples = .ok img ↔
      img.size = size ∧ img.format = format ∧ img.data = Bytes.ofSamples samples := by
  rw [ofSamples, if_pos h, ofBytes_eq_ok_iff]

theorem rowBytes_sixteen (width : UInt32) :
    format.rowBytes width = width.toNat * format.channels * 2 := by
  rw [PixelFormat.rowBytes, PixelFormat.bytesPerPixel, h, ← Nat.mul_assoc]
  rfl

theorem byteCount_sixteen (size : Size) :
    byteCount size format = 2 * (size.width.toNat * size.height.toNat * format.channels) := by
  rw [byteCount, rowBytes_sixteen h]
  ring

/-- Samples make an image exactly if there is one for each channel of each pixel. -/
theorem exists_ofSamples_iff (samples : List UInt16) :
    (∃ img, ofSamples size format samples = .ok img) ↔
      samples.length = size.width.toNat * size.height.toNat * format.channels ∧
        2 * samples.length < Bytes.limit := by
  have hbytes := Bytes.size_ofSamples samples
  have hcount := byteCount_sixteen h size
  constructor
  · rintro ⟨img, himg⟩
    obtain ⟨rfl, rfl, hdata⟩ := (ofSamples_eq_ok_iff h).mp himg
    have hpacked := img.packed
    have hheld := img.held
    rw [hdata] at hpacked
    omega
  · rintro ⟨hlength, hheld⟩
    exact ⟨⟨size, format, Bytes.ofSamples samples, by omega, by omega⟩,
      (ofSamples_eq_ok_iff h).mpr ⟨rfl, rfl, rfl⟩⟩

/-- Sample `i` of a row, counted on from the rows above. -/
theorem load?_row {img : Image} (himg : img.format = format) {y i : Nat}
    (hi : i < img.size.width.toNat * format.channels) :
    SampleWidth.sixteen.load? (img.row y) i =
      (img.samples[y * (img.size.width.toNat * format.channels) + i]?).map (·.toNat) := by
  have hstride : img.stride = img.size.width.toNat * format.channels * 2 := by
    rw [stride, himg, rowBytes_sixteen h]
  rw [row, hstride, ← Nat.mul_assoc, samples, ← SampleWidth.load?_sixteen]
  exact SampleWidth.load?_part hi

end Sixteen

/-- 16-bit samples are kept as they are. Samples make an image exactly if there is one for each
channel of each pixel (and if memory holds them, as it does every list that a caller has), and the
image has these samples. Bytes that are whole samples are the bytes of their samples, so that an
image is made again from its own. The row kernel of the format reads the samples of the image, at
every place, in every row, and nothing where there is no sample. Storing one replaces its two
bytes, if both are there: the sample itself is then read as its low 16 bits, and all others as
before. -/
theorem ofSamples_lossless (size : Size) (h : format.depth = .integer .sixteen) :
    (∀ samples : List UInt16, (∃ img, ofSamples size format samples = .ok img) ↔
      samples.length = size.width.toNat * size.height.toNat * format.channels ∧
        2 * samples.length < Bytes.limit) ∧
    (∀ samples img, ofSamples size format samples = .ok img →
      img.size = size ∧ img.format = format ∧ img.samples = samples) ∧
    (∀ b : Bytes, b.size % 2 = 0 → Bytes.ofSamples b.toSamples = b) ∧
    (∀ img : Image, img.format = format → ofSamples img.size format img.samples = .ok img) ∧
    ∃ k, RowKernel.ofFormat? format = some k ∧
      (∀ (b : Bytes) (i : Nat), k.width.load? b i = (b.toSamples[i]?).map (·.toNat)) ∧
      (∀ img : Image, img.format = format →
        ∀ y, ∀ i < img.size.width.toNat * format.channels,
          k.width.load? (img.row y) i =
            (img.samples[y * (img.size.width.toNat * format.channels) + i]?).map (·.toNat)) ∧
      ∀ (row : Bytes) (i v : Nat),
        (row.size ≤ 2 * i + 1 → k.width.store? row i v = none) ∧
        (2 * i + 1 < row.size → ∃ after, k.width.store? row i v = some after ∧
          SampleWidth.Replaced row i v after ∧
          k.width.load? after i = some (v % 65536) ∧
          ∀ j, j ≠ i → k.width.load? after j = k.width.load? row j) := by
  have hkernel : RowKernel.ofFormat? format = some ⟨format.channels, .sixteen, format.alpha⟩ := by
    rw [RowKernel.ofFormat?, h]
  refine ⟨exists_ofSamples_iff h, ?made, fun b hb => Bytes.ofSamples_toSamples hb, ?again, _,
    hkernel, SampleWidth.load?_sixteen, fun img himg y i hi => load?_row h himg hi, ?stored⟩
  case made =>
    intro samples img himg
    obtain ⟨hsize, hformat, hdata⟩ := (ofSamples_eq_ok_iff h).mp himg
    exact ⟨hsize, hformat, by rw [Image.samples, hdata, Bytes.toSamples_ofSamples]⟩
  case again =>
    rintro img rfl
    have heven : img.data.size % 2 = 0 := by
      rw [img.packed, byteCount_sixteen h]
      omega
    exact (ofSamples_eq_ok_iff h).mpr ⟨rfl, rfl, (Bytes.ofSamples_toSamples heven).symm⟩
  case stored =>
    intro row i v
    refine ⟨fun hshort => SampleWidth.store?_sixteen_eq_none hshort v, fun hroom => ?_⟩
    obtain ⟨after, hafter, hreplaced⟩ := SampleWidth.exists_store?_sixteen hroom v
    exact ⟨after, hafter, hreplaced, hreplaced.load?_self, fun j hj => hreplaced.load?_of_ne hj⟩

/-- Two pixels of one sample each: made from two samples but not from three, read where they stand,
and the second one replaced in a row with an odd byte after it. -/
theorem ofSamples_lossless_grey_pair :
    PixelFormat.grey16.depth = .integer .sixteen ∧
      (∃ img, ofSamples ⟨2, 1⟩ .grey16 [258, 65535] = .ok img ∧ img.samples = [258, 65535] ∧
        SampleWidth.sixteen.load? (img.row 0) 1 = some 65535) ∧
      (¬∃ img, ofSamples ⟨2, 1⟩ .grey16 [258, 65535, 7] = .ok img) ∧
      Bytes.ofSamples (Bytes.toSamples #[2, 1, 255, 255]) = #[2, 1, 255, 255] ∧
      ∃ after, SampleWidth.sixteen.store? #[2, 1, 255, 255, 7] 1 772 = some after ∧
        after[4]? = some 7 ∧ SampleWidth.sixteen.load? after 1 = some 772 ∧
        SampleWidth.sixteen.load? after 0 = some 258 := by
  have hdepth : PixelFormat.grey16.depth = .integer .sixteen := rfl
  obtain ⟨hmade, hkept, hbytes, -, k, hk, -, hrow, hstore⟩ :=
    ofSamples_lossless ⟨2, 1⟩ hdepth
  obtain rfl : k = ⟨1, .sixteen, .none⟩ := (Option.some.inj hk).symm
  obtain ⟨img, himg⟩ := (hmade [258, 65535]).mpr ⟨rfl, by decide⟩
  obtain ⟨hsize, hformat, hsamples⟩ := hkept _ _ himg
  have hload := hrow img hformat 0 1 (by rw [hsize]; decide)
  rw [hsize, hsamples] at hload
  have hmany : ¬∃ img, ofSamples ⟨2, 1⟩ .grey16 [258, 65535, 7] = .ok img := by
    rw [hmade]
    decide
  obtain ⟨after, hafter, hreplaced, hself, hother⟩ :=
    (hstore #[2, 1, 255, 255, 7] 1 772).2 (by decide)
  exact ⟨hdepth, ⟨img, himg, hsamples, hload⟩, hmany, hbytes _ rfl, after, hafter,
    hreplaced.rest_eq 4 (by decide) (by decide), hself, hother 0 (by decide)⟩

end Image

end Resampler
