import Resampler.Image
import Resampler.Proofs.Source.Serving

/-!
Images as sources, and sources as images.

A view that its bytes are enough for serves its rows and never fails, and an image does
so without padding. Draining a source that serves rows without a failure gives the image of
those rows, provided that memory can hold it.
-/

namespace Resampler

/-- The bytes that memory holds can be counted. -/
theorem Bytes.limit_lt : Bytes.limit < Word.limit64 := by decide

namespace View

variable {σ : Type} {v : View}

/-- The views of memory: those whose bytes were found to be enough, and those of images. -/
inductive InMemory : View → Prop
  | ofBytes {size : Size} {format : PixelFormat} {stride : Nat} {data : Bytes} {v : View}
      (h : View.ofBytes size format stride data = .ok v) : InMemory v
  | ofImage (img : Image) : InMemory img.view

/-- Row `y` of a view. -/
def row (v : View) (y : Nat) : Bytes := v.data.part (y * v.stride) (v.format.rowBytes v.size.width)

/-- The bytes of a view are enough for a request for the whole of it. -/
theorem InMemory.check_eq (h : v.InMemory) :
    Request.check ⟨Region.ofSize v.size, v.stride⟩ v.size v.format v.data.size =
      .ok (v.format.rowBytes v.size.width) := by
  cases h with
  | ofBytes h =>
    rename_i size format stride data
    cases hcheck : Request.check ⟨Region.ofSize size, stride⟩ size format data.size with
    | error e =>
      rw [View.ofBytes, hcheck] at h
      cases h
    | ok n =>
      rw [View.ofBytes, hcheck] at h
      cases h
      obtain ⟨-, rfl, -⟩ := Request.check_eq_ok_iff.mp hcheck
      exact hcheck
  | ofImage img =>
    have hsize : img.data.size = img.size.height.toNat * img.format.rowBytes img.size.width := by
      rw [img.packed, Image.byteCount, Nat.mul_comm]
    have hheld := img.held
    have hword := Bytes.limit_lt
    rw [← img.packed, hsize] at hheld
    change Request.check ⟨Region.ofSize img.size, _⟩ img.size img.format img.data.size = _
    rw [Region.ofSize_eq_rows]
    exact Request.check_rows img.format (Nat.zero_add _).le (by omega) hsize.ge

/-- The rows of a view lie in its bytes, and so their places are words. -/
theorem InMemory.row_le (h : v.InMemory) {y : Nat} (hy : y < v.size.height.toNat) :
    y * v.stride + v.format.rowBytes v.size.width ≤ v.data.size ∧
      y * v.stride + v.format.rowBytes v.size.width < Word.limit64 := by
  obtain ⟨-, -, -, hword, hroom⟩ := Request.check_eq_ok_iff.mp h.check_eq
  have hlast : Request.required ⟨Region.ofSize v.size, v.stride⟩ (v.format.rowBytes v.size.width) =
      (v.size.height.toNat - 1) * v.stride + v.format.rowBytes v.size.width :=
    if_neg (Nat.ne_of_gt (Nat.lt_of_le_of_lt (Nat.zero_le y) hy))
  rw [hlast] at hword hroom
  have hrow : y * v.stride ≤ (v.size.height.toNat - 1) * v.stride :=
    Nat.mul_le_mul_right _ (by omega)
  omega

theorem InMemory.size_row (h : v.InMemory) {y : Nat} (hy : y < v.size.height.toNat) :
    (v.row y).size = v.format.rowBytes v.size.width :=
  Bytes.size_part (h.row_le hy).1

theorem columns_le {region : Region} (hx : region.right ≤ v.size.width.toNat) :
    region.x.toNat * v.format.bytesPerPixel + v.format.rowBytes region.width ≤
      v.format.rowBytes v.size.width := by
  rw [PixelFormat.rowBytes, ← Nat.add_mul]
  exact Nat.mul_le_mul_right _ hx

theorem InMemory.rowPart?_eq (h : v.InMemory) {region : Region} {y : Nat}
    (hx : region.right ≤ v.size.width.toNat) (hy : y < v.size.height.toNat) :
    v.rowPart? region y = some ((v.row y).part (region.x.toNat * v.format.bytesPerPixel)
      (v.format.rowBytes region.width)) := by
  have hin := columns_le hx
  have hrow := (h.row_le hy).1
  rw [row, Bytes.part_part hin]
  exact Bytes.slice?_of_le (by omega)

/-- A view serves its rows and never fails. -/
theorem InMemory.serves (h : v.InMemory) :
    (v.source : Source σ).Serves (fun _ => True) v.row fun _ => False := by
  refine Source.serves_ofRows (fun y hy => h.size_row hy) fun region y hin hy => ?_
  obtain ⟨hright, hbottom⟩ := (Region.contains_ofSize_iff _ _).mp hin
  exact Pull.ensures_lookup (h.rowPart?_eq hright (by omega)) fun s _ => ⟨rfl, trivial⟩

end View

namespace Image

variable {σ : Type}

/-- Row `y` of an image. -/
def row (img : Image) (y : Nat) : Bytes := img.data.part (y * img.stride) img.stride

theorem size_data (img : Image) : img.data.size = img.size.height.toNat * img.stride := by
  rw [img.packed, byteCount, Nat.mul_comm]
  rfl

theorem row_le (img : Image) {y : Nat} (hy : y < img.size.height.toNat) :
    y * img.stride + img.stride ≤ img.data.size := by
  rw [img.size_data, ← Nat.succ_mul]
  exact Nat.mul_le_mul_right _ hy

theorem size_row (img : Image) {y : Nat} (hy : y < img.size.height.toNat) :
    (img.row y).size = img.stride :=
  Bytes.size_part (img.row_le hy)

theorem row_of_data {img : Image} {rows : Nat → Bytes}
    (hdata : img.data = Bytes.stack rows (List.range' 0 img.size.height.toNat))
    (hsize : ∀ y < img.size.height.toNat, (rows y).size = img.stride) {y : Nat}
    (hy : y < img.size.height.toNat) : img.row y = rows y := by
  rw [row, hdata, Bytes.part_stack (fun z hz => hsize z (by simpa using List.mem_range'_1.mp hz))
    (by rwa [List.length_range']), List.getElem_range', Nat.zero_add, Nat.one_mul]

theorem rowPart?_view {img : Image} {region : Region} {y : Nat}
    (hx : region.right ≤ img.size.width.toNat) (hy : y < img.size.height.toNat) :
    img.view.rowPart? region y = some ((img.row y).part (region.x.toNat * img.format.bytesPerPixel)
      (img.format.rowBytes region.width)) :=
  (View.InMemory.ofImage img).rowPart?_eq hx hy

/-- An image serves its rows and never fails. -/
theorem serves (img : Image) : (img.source : Source σ).Serves (fun _ => True) img.row
    fun _ => False :=
  (View.InMemory.ofImage img).serves

theorem blank_of_held {size : Size} {format : PixelFormat}
    (held : byteCount size format < Bytes.limit) :
    blank size format =
      .ok ⟨size, format, Array.replicate (byteCount size format) 0, by simp, held⟩ := by
  have hword := Bytes.limit_lt
  rw [blank, ifHeld, if_neg (by omega), dif_pos held]

theorem blank_of_not_held {size : Size} {format : PixelFormat}
    (held : ¬byteCount size format < Bytes.limit) :
    ∃ e, blank size format = .error e := by
  unfold blank ifHeld
  split
  · exact ⟨_, rfl⟩
  · exact ⟨_, rfl⟩

end Image

/-- Where nothing fails, draining gives the image of the rows, if it can be held. -/
theorem Source.Serves.drain {σ : Type} {src : Source σ} {I : σ → Prop} {rows : Nat → Bytes}
    (h : src.Serves I rows fun _ => False) {s : σ} (hs : I s)
    (held : Image.byteCount src.size src.format < Bytes.limit) :
    ∃ out, (src.drain s).result = .ok out ∧ out.size = src.size ∧ out.format = src.format ∧
      out.data = Bytes.stack rows (List.range' 0 src.size.height.toNat) := by
  have hbytes : Image.byteCount src.size src.format =
      src.size.height.toNat * src.format.rowBytes src.size.width := Nat.mul_comm _ _
  simp only [Source.drain, Image.blank_of_held held]
  split
  case isTrue hempty =>
    refine ⟨_, rfl, rfl, rfl, ?_⟩
    -- an image without bytes may have rows, but then they have no bytes either
    have hstack : (Bytes.stack rows (List.range' 0 src.size.height.toNat)).size =
        Image.byteCount src.size src.format := by
      rw [Bytes.size_stack fun y hy => h.size_row y (by simpa using List.mem_range'_1.mp hy),
        List.length_range', hbytes]
    rw [Array.isEmpty_iff_size_eq_zero, Array.size_replicate] at hempty
    rw [Array.eq_empty_of_size_eq_zero (hstack.trans hempty)]
    exact Array.eq_empty_of_size_eq_zero (Array.size_replicate.trans hempty)
  case isFalse =>
    obtain ⟨hok, hdata⟩ := h.copy_rows hs (y := 0) (n := src.size.height.toNat) (by omega)
      (by have hword := Bytes.limit_lt
          omega)
      (Array.replicate (Image.byteCount src.size src.format) 0)
      ((Array.size_replicate (v := (0 : UInt8))).trans hbytes) rfl
    rw [← Region.ofSize_eq_rows] at hok hdata
    simp only [Image.stride, hok, Except.map]
    exact ⟨_, rfl, rfl, rfl, hdata⟩

end Resampler
