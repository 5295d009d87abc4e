import Resampler.Pixel.Format

/-!
Samples in bytes.

An 8-bit sample is one byte; a 16-bit sample is two, the low one first. Reading
or writing outside the bytes is reported as `none` and never answered by a
default. `blit?` and `slice?` are the same for runs of bytes.
-/

namespace Resampler

abbrev Bytes := Array UInt8

namespace Bytes

/-- No run of bytes that memory holds is as long as this. -/
def limit : Nat := 9223372036854775808

/-- The `len` bytes from position `start`, if all of them exist. -/
def slice? (b : Bytes) (start len : Nat) : Option Bytes :=
  if start + len ≤ b.size then some (b.extract start (start + len)) else none

/-- `b` with `row` written over the bytes from `start`, if all of them exist. -/
def blit? (b : Bytes) (start : Nat) (row : Bytes) : Option Bytes :=
  if start + row.size ≤ b.size then
    some (b.extract 0 start ++ row ++ b.extract (start + row.size) b.size)
  else
    none

/-- The 16-bit samples of a run of bytes. An odd last byte is dropped. -/
def toSamples (b : Bytes) : List UInt16 := go b.toList
where
  /-- One sample from each pair of bytes. -/
  go : List UInt8 → List UInt16
    | lo :: hi :: rest => (lo.toUInt16 + (hi.toUInt16 <<< 8)) :: go rest
    | _ => []

/-- The bytes of 16-bit samples, the low byte of each first. -/
def ofSamples (s : List UInt16) : Bytes :=
  (s.flatMap fun v : UInt16 => [v.toUInt8, (v >>> 8).toUInt8]).toArray

@[simp] theorem size_ofSamples (s : List UInt16) : (ofSamples s).size = 2 * s.length := by
  induction s with
  | nil => rfl
  | cons v s ih =>
    simp only [ofSamples, List.flatMap_cons, List.size_toArray, List.length_append,
      List.length_cons, List.length_nil] at ih ⊢
    omega

theorem size_of_slice? {b r : Bytes} {start len : Nat} (h : b.slice? start len = some r) :
    r.size = len := by
  unfold slice? at h
  split at h
  · cases h
    simp
    omega
  · cases h

theorem size_of_blit? {b row r : Bytes} {start : Nat} (h : b.blit? start row = some r) :
    r.size = b.size := by
  unfold blit? at h
  split at h
  · cases h
    simp
    omega
  · cases h

end Bytes

namespace SampleWidth

def load? (w : SampleWidth) (row : Bytes) (i : Nat) : Option Nat :=
  match w with
  | eight => row[i]?.map (·.toNat)
  | sixteen =>
    match row[2 * i]?, row[2 * i + 1]? with
    | some lo, some hi => some (lo.toNat + 256 * hi.toNat)
    | _, _ => none

/-- The row with sample `i` replaced by the low bits of `v`. -/
def store? (w : SampleWidth) (row : Bytes) (i : Nat) (v : Nat) : Option Bytes :=
  match w with
  | eight => if i < row.size then some (row.setIfInBounds i (UInt8.ofNat v)) else none
  | sixteen =>
    if 2 * i + 1 < row.size then
      some ((row.setIfInBounds (2 * i) (UInt8.ofNat v)).setIfInBounds (2 * i + 1)
        (UInt8.ofNat (v / 256)))
    else
      none

/-- The row with the samples from `i` on replaced by `vs`, one after the other. -/
def storeFrom? (w : SampleWidth) (row : Bytes) (i : Nat) : List Nat → Option Bytes
  | [] => some row
  | v :: vs => do w.storeFrom? (← w.store? row i v) (i + 1) vs

theorem size_of_store? {w : SampleWidth} {row r : Bytes} {i v : Nat}
    (h : w.store? row i v = some r) : r.size = row.size := by
  unfold store? at h
  split at h <;> split at h <;> cases h <;> simp

end SampleWidth

end Resampler
