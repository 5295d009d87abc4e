import Resampler.Proofs.Source.Serving

/-!
The check of a request in machine words.

`Request.check` computes with numbers that have no largest one. A machine has words of 64 bits,
whose sums and products wrap around, and an operation that says instead that there is no word for
its outcome costs extra. Here the same check is written a second time, in words, with only three
such operations: for the bytes of a row, and for the place where the last row starts and the one
where it ends. All other words are the numbers that they stand for, because the fields of
rectangles and sizes have 32 bits; so both checks come to the same verdict, and each verdict is the
answer to a question about numbers.
-/

namespace Resampler

namespace Word

/-- The sum of two words, if it is one. -/
def add64? (a b : UInt64) : Option UInt64 :=
  if a.toNat + b.toNat < limit64 then some (a + b) else none

/-- The product of two words, if it is one. -/
def mul64? (a b : UInt64) : Option UInt64 :=
  if a.toNat * b.toNat < limit64 then some (a * b) else none

/-- The number, if there is a word for it. -/
def held64? (n : Nat) : Option Nat := if n < limit64 then some n else none

theorem held64?_eq_none_iff {n : Nat} : held64? n = none ↔ limit64 ≤ n := by
  simp [held64?]

theorem held64?_eq_some_iff {n m : Nat} : held64? n = some m ↔ n < limit64 ∧ n = m := by
  simp [held64?]

theorem toNat_mul_of_lt {a b : UInt64} (h : a.toNat * b.toNat < limit64) :
    (a * b).toNat = a.toNat * b.toNat :=
  (UInt64.toNat_mul a b).trans (Nat.mod_eq_of_lt h)

theorem map_add64? (a b : UInt64) :
    (add64? a b).map UInt64.toNat = held64? (a.toNat + b.toNat) := by
  unfold add64? held64?
  split
  case isTrue h => exact congrArg some ((UInt64.toNat_add a b).trans (Nat.mod_eq_of_lt h))
  case isFalse => rfl

theorem map_mul64? (a b : UInt64) :
    (mul64? a b).map UInt64.toNat = held64? (a.toNat * b.toNat) := by
  unfold mul64? held64?
  split
  case isTrue h => exact congrArg some (toNat_mul_of_lt h)
  case isFalse => rfl

end Word

namespace Region

/-- The column after the last one, as a word. -/
def rightWord (r : Region) : UInt64 := r.x.toUInt64 + r.width.toUInt64

/-- The row after the last one, as a word. -/
def bottomWord (r : Region) : UInt64 := r.y.toUInt64 + r.height.toUInt64

/-- `contains`, with edges that are words. -/
def containsWords (r s : Region) : Bool :=
  r.x ≤ s.x && r.y ≤ s.y && s.rightWord ≤ r.rightWord && s.bottomWord ≤ r.bottomWord

/-- All pixels of the rectangle are pixels of the image, and an empty one has its edges there. -/
def Within (r : Region) (size : Size) : Prop :=
  r.x.toNat + r.width.toNat ≤ size.width.toNat ∧ r.y.toNat + r.height.toNat ≤ size.height.toNat

theorem contains_iff_within {r : Region} {size : Size} :
    (ofSize size).contains r = true ↔ r.Within size :=
  contains_ofSize_iff size r

@[simp] theorem toNat_rightWord (r : Region) : r.rightWord.toNat = r.right := by
  have hx := r.x.toNat_lt
  have hwidth := r.width.toNat_lt
  simp only [rightWord, right, UInt64.toNat_add, UInt32.toNat_toUInt64]
  omega

@[simp] theorem toNat_bottomWord (r : Region) : r.bottomWord.toNat = r.bottom := by
  have hy := r.y.toNat_lt
  have hheight := r.height.toNat_lt
  simp only [bottomWord, bottom, UInt64.toNat_add, UInt32.toNat_toUInt64]
  omega

@[simp] theorem containsWords_eq (r s : Region) : r.containsWords s = r.contains s := by
  simp only [containsWords, contains, UInt64.le_iff_toNat_le, toNat_rightWord, toNat_bottomWord]

end Region

namespace PixelFormat

/-- Bytes of a row of `width` pixels without padding, if they are a word. -/
def rowBytesWord? (f : PixelFormat) (width : UInt32) : Option UInt64 :=
  Word.mul64? width.toUInt64 (UInt64.ofNat f.bytesPerPixel)

/-- They always are. -/
theorem map_rowBytesWord? (f : PixelFormat) (width : UInt32) :
    (f.rowBytesWord? width).map UInt64.toNat = some (f.rowBytes width) := by
  have hpixel : (UInt64.ofNat f.bytesPerPixel).toNat = f.bytesPerPixel :=
    UInt64.toNat_ofNat_of_lt' (f.bytesPerPixel_le.trans_lt (by decide))
  have hrow : f.rowBytes width < Word.limit64 := (f.rowBytes_lt width).trans (by decide)
  rw [rowBytesWord?, Word.map_mul64?, UInt32.toNat_toUInt64, hpixel]
  exact if_pos hrow

end PixelFormat

namespace Request

/-- The bytes that `height` rows reach, `stride` apart, if they are a word. There has to be a
row. -/
def requiredWord? (height : UInt32) (stride rowBytes : UInt64) : Option UInt64 := do
  Word.add64? (← Word.mul64? (height.toUInt64 - 1) stride) rowBytes

/-- They are the bytes that are reached, if there is a word for their number. -/
theorem map_requiredWord? {height : UInt32} (hpos : 0 < height.toNat) (stride rowBytes : UInt64) :
    (requiredWord? height stride rowBytes).map UInt64.toNat =
      Word.held64? ((height.toNat - 1) * stride.toNat + rowBytes.toNat) := by
  have hgaps : (height.toUInt64 - 1).toNat = height.toNat - 1 := by
    have hone : 1 ≤ height.toUInt64 :=
      UInt64.le_iff_toNat_le.mpr (by simpa using Nat.succ_le_of_lt hpos)
    rw [UInt64.toNat_sub_of_le _ _ hone]
    rfl
  have hproduct : (height.toUInt64 - 1).toNat * stride.toNat = (height.toNat - 1) * stride.toNat :=
    congrArg (· * stride.toNat) hgaps
  unfold requiredWord? Word.mul64?
  split
  case isTrue hstart =>
    change (Word.add64? _ _).map UInt64.toNat = _
    rw [Word.map_add64?, Word.toNat_mul_of_lt hstart, hproduct]
  case isFalse hnone =>
    -- if there is no word for the place where the last row starts, there is none for its end
    rw [hproduct] at hnone
    exact (if_neg (by omega)).symm

/-- The verdict on a request, reached in words. -/
def checkWords (region : Region) (stride : UInt64) (size : Size) (format : PixelFormat)
    (bufferSize : UInt64) : Except PixelError UInt64 :=
  if !(Region.ofSize size).containsWords region then
    .error (.outsideImage region size)
  else
    match format.rowBytesWord? region.width with
    | none => .error (.uncountable ⟨region.width, region.height⟩ "row size overflows")
    | some rowBytes =>
      if stride < rowBytes then
        .error (.strideTooShort stride.toNat rowBytes.toNat region.width)
      else if region.height = 0 then
        .ok rowBytes
      else
        match requiredWord? region.height stride rowBytes with
        | none => .error (.tooManyBytes ⟨region.width, region.height⟩)
        | some required =>
          if bufferSize < required then
            .error (.bufferTooSmall bufferSize.toNat required.toNat)
          else
            .ok rowBytes

/-- What the check computes in words: the edges of the rectangle, the bytes of a row, and the bytes
that are reached. Each word is the number that it stands for; only for the last one there may be
none, and that is noticed. -/
structure WordsExact (region : Region) (stride : UInt64) (format : PixelFormat) : Prop where
  right_eq : region.rightWord.toNat = region.x.toNat + region.width.toNat
  bottom_eq : region.bottomWord.toNat = region.y.toNat + region.height.toNat
  row_eq : (format.rowBytesWord? region.width).map UInt64.toNat =
    some (region.width.toNat * format.bytesPerPixel)
  required_eq : 0 < region.height.toNat → ∀ rowBytes,
    (requiredWord? region.height stride rowBytes).map UInt64.toNat =
      Word.held64? ((region.height.toNat - 1) * stride.toNat + rowBytes.toNat)

theorem wordsExact (region : Region) (stride : UInt64) (format : PixelFormat) :
    WordsExact region stride format where
  right_eq := region.toNat_rightWord
  bottom_eq := region.toNat_bottomWord
  row_eq := format.map_rowBytesWord? region.width
  required_eq hpos rowBytes := map_requiredWord? hpos stride rowBytes

theorem required_of_pos {q : Request} (h : 0 < q.region.height.toNat) (rowBytes : Nat) :
    q.required rowBytes = (q.region.height.toNat - 1) * q.stride + rowBytes :=
  if_neg h.ne'

/-- In words the verdict is the same. -/
theorem map_checkWords (region : Region) (stride : UInt64) (size : Size) (format : PixelFormat)
    (bufferSize : UInt64) :
    (checkWords region stride size format bufferSize).map UInt64.toNat =
      check ⟨region, stride.toNat⟩ size format bufferSize.toNat := by
  have hrow := format.map_rowBytesWord? region.width
  obtain ⟨rowBytes, hword, hbytes⟩ := Option.map_eq_some_iff.mp hrow
  simp only [checkWords, check, Region.containsWords_eq, hword, ← hbytes, UInt64.lt_iff_toNat_lt]
  split
  case isTrue => rfl
  case isFalse =>
    split
    case isTrue => rfl
    case isFalse =>
      by_cases hzero : region.height = 0
      · -- without rows no buffer is too small
        have hnone : (Request.mk region stride.toNat).required rowBytes.toNat = 0 :=
          if_pos (congrArg UInt32.toNat hzero)
        rw [if_pos hzero, hnone, if_neg (by decide), if_neg (Nat.not_lt_zero _)]
        rfl
      · have hpos : 0 < region.height.toNat :=
          Nat.pos_of_ne_zero fun h => hzero (UInt32.toNat_inj.mp h)
        have hreq := map_requiredWord? hpos stride rowBytes
        rw [← required_of_pos (q := ⟨region, stride.toNat⟩) hpos] at hreq
        rw [if_neg hzero]
        cases hneeded : requiredWord? region.height stride rowBytes with
        | none =>
          rw [hneeded] at hreq
          rw [if_pos (Word.held64?_eq_none_iff.mp hreq.symm)]
          rfl
        | some required =>
          rw [hneeded] at hreq
          obtain ⟨hheld, heq⟩ := Word.held64?_eq_some_iff.mp hreq.symm
          rw [if_neg (Nat.not_le.mpr hheld), heq]
          dsimp only
          split <;> rfl

section Verdicts

variable {q : Request} {size : Size} {format : PixelFormat} {bufferSize : Nat}

theorem check_eq_outsideImage_iff :
    q.check size format bufferSize = .error (.outsideImage q.region size) ↔
      ¬q.region.Within size := by
  rw [← Region.contains_iff_within]
  unfold check
  dsimp only
  split_ifs <;> simp_all [PixelError.tooManyBytes]

theorem check_eq_strideTooShort_iff :
    q.check size format bufferSize =
        .error (.strideTooShort q.stride (format.rowBytes q.region.width) q.region.width) ↔
      q.region.Within size ∧ q.stride < format.rowBytes q.region.width := by
  rw [← Region.contains_iff_within]
  unfold check
  dsimp only
  split_ifs <;> simp_all [PixelError.tooManyBytes]

theorem check_eq_tooManyBytes_iff :
    q.check size format bufferSize = .error (.tooManyBytes ⟨q.region.width, q.region.height⟩) ↔
      q.region.Within size ∧ format.rowBytes q.region.width ≤ q.stride ∧
        Word.limit64 ≤ q.required (format.rowBytes q.region.width) := by
  rw [← Region.contains_iff_within]
  unfold check
  dsimp only
  split_ifs <;> simp_all [PixelError.tooManyBytes]

theorem check_eq_bufferTooSmall_iff {least : Nat} :
    q.check size format bufferSize = .error (.bufferTooSmall bufferSize least) ↔
      q.region.Within size ∧ format.rowBytes q.region.width ≤ q.stride ∧
        least = q.required (format.rowBytes q.region.width) ∧ least < Word.limit64 ∧
          bufferSize < least := by
  rw [← Region.contains_iff_within]
  unfold check
  dsimp only
  split_ifs <;> grind [PixelError.tooManyBytes]

/-- A request needs some bytes only if it is for some rows. -/
theorem le_required_iff {n rowBytes : Nat} (hn : 0 < n) :
    n ≤ q.required rowBytes ↔
      0 < q.region.height.toNat ∧ n ≤ (q.region.height.toNat - 1) * q.stride + rowBytes := by
  unfold required
  split <;> omega

end Verdicts

/-- The verdict on a request for pixels of an image, with a stride and a length of the buffer that
are words. It is the bytes of a row exactly if, in numbers of any size, the rectangle is within the
image, a row is no longer than the stride, and there are no rows or the last one ends within the
buffer. Otherwise it is about the first of these that fails; if that is the buffer, it tells how
many bytes are needed, unless there is no word for their number. Reached in words, the verdict is
the same, and all words on the way are the numbers that they stand for. -/
theorem check_exact (region : Region) (stride bufferSize : UInt64) (size : Size)
    (format : PixelFormat) :
    let verdict := check ⟨region, stride.toNat⟩ size format bufferSize.toNat
    let row := region.width.toNat * format.bytesPerPixel
    let needed := (region.height.toNat - 1) * stride.toNat + row
    (∀ n, verdict = .ok n ↔ region.Within size ∧ n = row ∧ n ≤ stride.toNat ∧
      (region.height.toNat = 0 ∨ needed ≤ bufferSize.toNat)) ∧
    (verdict = .error (.outsideImage region size) ↔ ¬region.Within size) ∧
    (verdict = .error (.strideTooShort stride.toNat row region.width) ↔
      region.Within size ∧ stride.toNat < row) ∧
    (verdict = .error (.bufferTooSmall bufferSize.toNat needed) ↔
      region.Within size ∧ row ≤ stride.toNat ∧ 0 < region.height.toNat ∧
        bufferSize.toNat < needed ∧ needed < 2 ^ 64) ∧
    (verdict = .error (.tooManyBytes ⟨region.width, region.height⟩) ↔
      region.Within size ∧ row ≤ stride.toNat ∧ 0 < region.height.toNat ∧ 2 ^ 64 ≤ needed) ∧
    (checkWords region stride size format bufferSize).map UInt64.toNat = verdict ∧
    WordsExact region stride format := by
  intro verdict row needed
  have hlength := bufferSize.toNat_lt
  have hle {n : Nat} (hn : 0 < n) : n ≤ required ⟨region, stride.toNat⟩ row ↔
      0 < region.height.toNat ∧ n ≤ needed := le_required_iff hn
  refine ⟨fun n => ?_, check_eq_outsideImage_iff, check_eq_strideTooShort_iff, ?_, ?_,
    map_checkWords .., wordsExact ..⟩
  case refine_1 =>
    rw [check_eq_ok_iff, Region.contains_iff_within]
    refine and_congr_right fun _ => and_congr_right ?_
    rintro rfl
    refine and_congr_right fun _ => ?_
    have hword := hle (n := Word.limit64) (by decide)
    have hroom := hle (Nat.succ_pos bufferSize.toNat)
    change required _ row < _ ∧ required _ row ≤ _ ↔ _
    rw [Word.limit64] at hword ⊢
    omega
  case refine_2 =>
    rw [check_eq_bufferTooSmall_iff]
    refine and_congr_right fun _ => and_congr_right fun _ => ?_
    constructor
    · rintro ⟨heq, hword, hroom⟩
      obtain ⟨hpos, -⟩ := (hle (Nat.zero_lt_of_lt hroom)).mp heq.le
      exact ⟨hpos, hroom, hword⟩
    · rintro ⟨hpos, hroom, hword⟩
      exact ⟨(required_of_pos (q := ⟨region, stride.toNat⟩) hpos row).symm, hword, hroom⟩
  case refine_3 =>
    rw [check_eq_tooManyBytes_iff]
    exact and_congr_right fun _ => and_congr_right fun _ => hle (by decide)

end Request

end Resampler
