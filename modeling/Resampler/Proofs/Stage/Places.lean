import Resampler.Proofs.Stage.Progress
import Resampler.Taps.Footprint

/-!
Places in tables.

What a stage reads and writes lies in runs of memory that are cut into records: rows of a buffer,
lines of a window, weights of a tap table, samples of a row. A `Span` is a run of entries of such a
table, as it is computed from the number of a record and the length of one. For each thing that is
done to produce a row, `Touches` names the spans that it computes; what is proved of them is
that they lie in their tables and that no number on the way to them is too large for a word.

The products of two 32-bit numbers that occur here are lengths of memory that was
taken when the stage was made, `Held`, and nothing else keeps them small.
-/

namespace Resampler

/-- A run of entries of a table: its first entry, the entry after its last, and the number of
entries of the table. -/
structure Span where
  first : Nat
  stop : Nat
  length : Nat
deriving DecidableEq, Repr

namespace Span

/-- The run lies in its table, and its places are 64-bit words. -/
structure InBounds (p : Span) : Prop where
  first_le : p.first ≤ p.stop
  stop_le : p.stop ≤ p.length
  stop_lt : p.stop < Word.limit64

/-- The entry at place `i`. -/
def entry (i length : Nat) : Span := ⟨i, i + 1, length⟩

/-- The entries of `count` records from record `k` on, in a table of `total` records with `unit`
entries each. -/
def records (k count total unit : Nat) : Span := ⟨k * unit, (k + count) * unit, total * unit⟩

theorem inBounds_entry {i length : Nat} (h : i < length) (hword : i + 1 < Word.limit64) :
    (entry i length).InBounds :=
  ⟨Nat.le_succ i, h, hword⟩

theorem inBounds_records {k count total unit : Nat} (h : k + count ≤ total)
    (hword : total * unit < Word.limit64) : (records k count total unit).InBounds where
  first_le := Nat.mul_le_mul_right _ (Nat.le_add_right k count)
  stop_le := Nat.mul_le_mul_right _ h
  stop_lt := Nat.lt_of_le_of_lt (Nat.mul_le_mul_right _ h) hword

end Span

namespace Request

/-- What a request for a part of an image reaches in the image, which has columns and rows, and in
a buffer of `room` bytes. -/
inductive Touches (q : Request) (size : Size) (format : PixelFormat) (room : Nat) : Span → Prop
  | columns : Touches q size format room ⟨q.region.x.toNat, q.region.right, size.width.toNat⟩
  | row {r : Nat} (hr : r < q.region.height.toNat) :
      Touches q size format room (.entry (q.region.y.toNat + r) size.height.toNat)
  | buffer {r : Nat} (hr : r < q.region.height.toNat) :
      Touches q size format room
        ⟨r * q.stride, r * q.stride + format.rowBytes q.region.width, room⟩

variable {q : Request} {size : Size} {format : PixelFormat} {room n : Nat} {span : Span}

/-- The check of a request keeps it in the image and in the buffer. -/
theorem Touches.inBounds (hq : q.check size format room = .ok n)
    (h : q.Touches size format room span) : span.InBounds := by
  obtain ⟨hin, rfl, -, hword, -⟩ := check_eq_ok_iff.mp hq
  have hwidth := size.width.toNat_lt
  have hheight := size.height.toNat_lt
  rw [Word.limit64] at hword
  cases h with
  | columns =>
    obtain ⟨hright, -⟩ := (Region.contains_ofSize_iff _ _).mp hin
    refine ⟨Nat.le_add_right _ _, hright, ?_⟩
    simp only [Word.limit64]
    omega
  | row hr =>
    obtain ⟨hlow, -⟩ := bounds_of_check hq hr
    apply Span.inBounds_entry hlow
    rw [Word.limit64]
    omega
  | @buffer r hr =>
    obtain ⟨-, -, hroom⟩ := bounds_of_check hq hr
    -- no row lies behind the last one, and the check has seen where that ends
    have hlast : r * q.stride ≤ (q.region.height.toNat - 1) * q.stride :=
      Nat.mul_le_mul_right _ (by omega)
    rw [required, if_neg (by omega)] at hword
    refine ⟨Nat.le_add_right _ _, hroom, ?_⟩
    simp only [Word.limit64]
    omega

end Request

namespace View

/-- The bytes of row `y` in the columns of `region`. -/
def place (v : View) (region : Region) (y : Nat) : Span :=
  let start := y * v.stride + region.x.toNat * v.format.bytesPerPixel
  ⟨start, start + v.format.rowBytes region.width, v.data.size⟩

/-- A rectangle in the image lies in the bytes, be they padded or not. -/
theorem InMemory.inBounds_place {v : View} (h : v.InMemory) {region : Region} {y : Nat}
    (hx : region.right ≤ v.size.width.toNat) (hy : y < v.size.height.toNat) :
    (v.place region y).InBounds := by
  obtain ⟨hroom, hword⟩ := h.row_le hy
  have hin := columns_le (v := v) hx
  refine ⟨Nat.le_add_right _ _, ?_, ?_⟩
  · simp only [place]
    omega
  · simp only [place]
    omega

end View

namespace TapTable

/-- What is reached for output sample `i`: its weights among those of the table, each
of them, and the input samples of its window. -/
inductive Touches (t : TapTable) (i : Nat) : Span → Prop
  | window : Touches t i (.records i 1 t.outputSize (t.tapCount * t.channels))
  | weight {j c : Nat} (hj : j < t.tapCount) (hc : c < t.channels) :
      Touches t i (.entry (j * t.channels + c) (t.window i).weights.size)
  | sample {j : Nat} (hj : j < t.tapCount) :
      Touches t i (.entry ((t.window i).start + j) t.inputSize)

/-- Memory holds the weights. -/
def Held (t : TapTable) : Prop := weightBytes t.outputSize t.tapCount t.channels < Bytes.limit

instance (t : TapTable) : Decidable t.Held := inferInstanceAs (Decidable (_ < _))

theorem Held.lt {t : TapTable} (h : t.Held) :
    t.outputSize * (t.tapCount * t.channels) < Word.limit64 := by
  have hlimit := Bytes.limit_lt
  rw [Held, weightBytes, Nat.mul_assoc] at h
  omega

theorem Touches.inBounds {t : TapTable} (hconfined : t.Confined) (hheld : t.Held)
    (hinput : t.inputSize < Word.limit64) {i : Nat} (hi : i < t.outputSize) {span : Span}
    (h : t.Touches i span) : span.InBounds := by
  have hall := hheld.lt
  cases h with
  | window => exact Span.inBounds_records hi hall
  | weight hj hc =>
    have hplace := RowKernel.place_lt hj hc
    have hone : t.tapCount * t.channels ≤ t.outputSize * (t.tapCount * t.channels) :=
      Nat.le_mul_of_pos_left _ (Nat.zero_lt_of_lt hi)
    apply Span.inBounds_entry
    · rwa [hconfined.size_weights i hi]
    · omega
  | sample hj =>
    have hinside := hconfined.inside i hi
    apply Span.inBounds_entry
    · omega
    · omega

end TapTable

namespace Resampling

/-- The lengths of what a window has one of for each of its rows: lines, and rows of the source if
they are kept. -/
inductive SlotLength (plan : Resampling) : Nat → Prop
  | line : SlotLength plan plan.lineSamples
  | source (h : plan.keepsSource = true) : SlotLength plan plan.sourceBytes

/-- What is reached to make the pixels from column `x` on of output row `y`, with the window `w`
as it was before: the weights, the rows of the source, the slots of the window, and the samples of
the rows and lines. -/
inductive Touches (plan : Resampling) (w : Band) (y x width : Nat) : Span → Prop
  | vertical {span : Span} (h : plan.vertical.Touches y span) : Touches plan w y x width span
  | horizontal {i : Nat} (hi : i < plan.horizontal.outputSize) {span : Span}
      (h : plan.horizontal.Touches i span) : Touches plan w y x width span
  /-- where the window ends -/
  | window : Touches plan w y x width ⟨w.start, w.stop, plan.sourceSize.height.toNat⟩
  /-- the slots in front of those that stay, which are moved away -/
  | moved {n : Nat} (hn : plan.SlotLength n) (hlo : w.start ≤ (plan.vertical.window y).start)
      (hhi : (plan.vertical.window y).start < w.stop) :
      Touches plan w y x width
        (.records 0 ((plan.vertical.window y).start - w.start) plan.vertical.tapCount n)
  /-- a slot that is filled or blended -/
  | slot {n k : Nat} (hn : plan.SlotLength n) (hk : k < plan.vertical.tapCount) :
      Touches plan w y x width (.records k 1 plan.vertical.tapCount n)
  /-- a sample of a row of the source -/
  | sample {i j c : Nat} (hi : i < plan.horizontal.outputSize)
      (hj : j < plan.horizontal.tapCount) (hc : c < plan.kernel.channels) :
      Touches plan w y x width
        (.records (((plan.horizontal.window i).start + j) * plan.kernel.channels + c) 1
          (plan.sourceSize.width.toNat * plan.kernel.channels) plan.kernel.width.bytes)
  /-- a line must not be empty for the window to be cut into lines -/
  | line (hwidth : 0 < width) : Touches plan w y x width (.entry 0 plan.lineSamples)
  /-- a sample of a line -/
  | column {i c : Nat} (hi : i < width) (hc : c < plan.kernel.channels) :
      Touches plan w y x width (.entry ((x + i) * plan.kernel.channels + c) plan.lineSamples)
  /-- a sample of the pixels -/
  | pixel {i c : Nat} (hi : i < width) (hc : c < plan.kernel.channels) :
      Touches plan w y x width
        (.records (i * plan.kernel.channels + c) 1 (width * plan.kernel.channels)
          plan.kernel.width.bytes)

/-- Memory holds what is taken when the stage is made: the weights of both tables, the lines of the
window as 32-bit words, and the rows of the source where they are kept. -/
structure Held (plan : Resampling) : Prop where
  horizontal : plan.horizontal.Held
  vertical : plan.vertical.Held
  lines : 4 * (plan.vertical.tapCount * plan.lineSamples) < Bytes.limit
  sources : plan.keepsSource = true → plan.vertical.tapCount * plan.sourceBytes < Bytes.limit

theorem Held.slots_lt {plan : Resampling} (h : plan.Held) {n : Nat} (hn : plan.SlotLength n) :
    plan.vertical.tapCount * n < Word.limit64 := by
  have hlimit := Bytes.limit_lt
  cases hn with
  | line =>
    have := h.lines
    omega
  | source hkeeps =>
    have := h.sources hkeeps
    omega

theorem Fits.samples_lt {plan : Resampling} (h : plan.Fits) (width : UInt32) :
    width.toNat * plan.kernel.channels * plan.kernel.width.bytes < 68719476736 := by
  have hbytes : plan.kernel.channels * plan.kernel.width.bytes = plan.format.bytesPerPixel :=
    h.bytesPerPixel_eq
  rw [Nat.mul_assoc, hbytes]
  exact plan.format.rowBytes_lt width

variable {plan : Resampling} {w : Band} {y x : Nat} {width : UInt32} {span : Span}

/-- What is reached for a part of a row lies where it should, if the window lies in the source. -/
theorem Touches.inBounds (hfits : plan.Fits) (hheld : plan.Held) (hw : plan.Intact w)
    (hstop : w.stop ≤ plan.sourceSize.height.toNat) (hy : y < plan.size.height.toNat)
    (hx : x + width.toNat ≤ plan.size.width.toNat) (h : plan.Touches w y x width.toNat span) :
    span.InBounds := by
  have hlow := Nat.lt_of_lt_of_le hy plan.height_le
  have hright := Nat.le_trans hx plan.width_le
  have hsourcewidth := plan.sourceSize.width.toNat_lt
  have hsourceheight := plan.sourceSize.height.toNat_lt
  have hchannels := hfits.channels_pos
  cases h with
  | vertical h =>
    apply h.inBounds hfits.vertical hheld.vertical _ hlow
    rw [hfits.height_eq, Word.limit64]
    omega
  | horizontal hi h =>
    apply h.inBounds hfits.horizontal hheld.horizontal _ hi
    rw [hfits.width_eq, Word.limit64]
    omega
  | window =>
    refine ⟨Nat.le_add_right _ _, hstop, ?_⟩
    simp only [Word.limit64]
    omega
  | moved hn hlo hhi =>
    have hroom := hw.size_le
    rw [Band.stop] at hhi
    exact Span.inBounds_records (by omega) (hheld.slots_lt hn)
  | slot hn hk => exact Span.inBounds_records hk (hheld.slots_lt hn)
  | @sample i j c hi hj hc =>
    have hinside := hfits.horizontal.inside i hi
    have hcolumn : (plan.horizontal.window i).start + j < plan.sourceSize.width.toNat := by
      rw [← hfits.width_eq]
      omega
    apply Span.inBounds_records
    · exact RowKernel.place_lt hcolumn hc
    · have := hfits.samples_lt plan.sourceSize.width
      rw [Word.limit64]
      omega
  | line hwidth =>
    apply Span.inBounds_entry
    · exact Nat.mul_pos (by omega) hchannels
    · decide
  | @column i c hi hc =>
    have hin : x + i < plan.size.width.toNat := by omega
    have hplace := RowKernel.place_lt hin hc
    have hbytes : plan.size.width.toNat * plan.kernel.channels ≤
        plan.size.width.toNat * plan.kernel.channels * plan.kernel.width.bytes :=
      Nat.le_mul_of_pos_right _ (by cases plan.kernel.width <;> decide)
    have := hfits.samples_lt plan.size.width
    apply Span.inBounds_entry
    · exact RowKernel.place_lt (Nat.lt_of_lt_of_le hin plan.width_le) hc
    · rw [Word.limit64]
      omega
  | pixel hi hc =>
    apply Span.inBounds_records
    · exact RowKernel.place_lt hi hc
    · have := hfits.samples_lt width
      rw [Word.limit64]
      omega

end Resampling

namespace Sharpening

variable {α σ : Type} {plan : Sharpening α} {below : Source σ}

/-- What is reached to make the sharpened pixels from column `x` on of output row `y`. They are
combined where the blurred pixels lie, sample by sample. -/
inductive Touches (plan : Sharpening α) (w : Band) (y x width : Nat) : Span → Prop
  | blur {span : Span} (h : plan.blur.Touches w y x width span) : Touches plan w y x width span
  /-- the blurred pixels, in a row that has room for all that there can be -/
  | blurred : Touches plan w y x width
      (.records 0 width plan.blur.sourceSize.width.toNat plan.blur.format.bytesPerPixel)
  /-- the slot of the sharp row -/
  | kept : Touches plan w y x width (.records (y - (plan.blur.vertical.window y).start) 1
      plan.blur.vertical.tapCount plan.blur.sourceBytes)
  /-- the sharp pixels in their row -/
  | sharp : Touches plan w y x width
      (.records x width plan.blur.sourceSize.width.toNat plan.blur.format.bytesPerPixel)

theorem Touches.inBounds {w : Band} {y x : Nat} {width : UInt32} {span : Span}
    (hseat : plan.Seated below) (hheld : plan.blur.Held) (hw : plan.blur.Intact w)
    (hstop : w.stop ≤ plan.blur.sourceSize.height.toNat) (hy : y < plan.blur.size.height.toNat)
    (hx : x + width.toNat ≤ plan.blur.size.width.toNat)
    (h : plan.Touches w y x width.toNat span) : span.InBounds := by
  have hrow := plan.blur.format.rowBytes_lt plan.blur.sourceSize.width
  have hword : plan.blur.sourceSize.width.toNat * plan.blur.format.bytesPerPixel <
      Word.limit64 := Nat.lt_trans hrow (by decide)
  rw [hseat.size_eq] at hx
  cases h with
  | blur h =>
    rw [← hseat.size_eq] at hx
    exact h.inBounds hseat.blur.fits hheld hw hstop hy hx
  | blurred => exact Span.inBounds_records (by omega) hword
  | kept =>
    obtain ⟨hlo, hhi⟩ := hseat.centered y (Nat.lt_of_lt_of_le hy plan.blur.height_le)
    exact Span.inBounds_records (by omega) (hheld.slots_lt (.source hseat.keepsSource))
  | sharp => exact Span.inBounds_records hx hword

end Sharpening

end Resampler
