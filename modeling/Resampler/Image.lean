import Resampler.Source

/-!
Images in memory.

A `View` is a run of bytes read as rows that start a fixed distance apart; an
`Image` holds its rows without padding. Both are sources that never fail on a
request that passes the check, and `Source.drain` turns any source into an
image by one request for all of it.
-/

namespace Resampler

/-- Bytes read as an image with one row every `stride` bytes. -/
structure View where
  size : Size
  format : PixelFormat
  stride : Nat
  data : Bytes

namespace View

/-- The view of `data`, if it is large enough to describe the image. -/
def ofBytes (size : Size) (format : PixelFormat) (stride : Nat) (data : Bytes) :
    Except PixelError View := do
  let _ ← Request.check ⟨Region.ofSize size, stride⟩ size format data.size
  return ⟨size, format, stride, data⟩

/-- The bytes of row `y` in the columns of `region`. -/
def rowPart? (v : View) (region : Region) (y : Nat) : Option Bytes :=
  v.data.slice? (y * v.stride + region.x.toNat * v.format.bytesPerPixel)
    (v.format.rowBytes region.width)

/-- A view as a source. It has no state of its own. -/
def source {σ : Type} (v : View) : Source σ :=
  Source.ofRows v.size v.format (fun _ => []) fun region y => Pull.lookup (v.rowPart? region y)

end View

/-- The bytes of the pixels of an image of a given size and format. -/
def Image.byteCount (size : Size) (format : PixelFormat) : Nat :=
  format.rowBytes size.width * size.height.toNat

/-- Rows of pixels without padding, as many bytes as memory can hold. -/
structure Image where
  size : Size
  format : PixelFormat
  data : Bytes
  packed : data.size = Image.byteCount size format
  held : Image.byteCount size format < Bytes.limit

namespace Image

/-- Bytes between the starts of two rows. -/
def stride (img : Image) : Nat := img.format.rowBytes img.size.width

/-- What `make` makes, if the bytes of an image can be counted and held. -/
def ifHeld {β : Type} (size : Size) (format : PixelFormat)
    (make : byteCount size format < Bytes.limit → Except Failure β) : Except Failure β :=
  if Word.limit64 ≤ byteCount size format then .error (.error (.tooManyBytes size))
  else if held : byteCount size format < Bytes.limit then make held
  else .error .outOfMemory

/-- The image whose bytes are all zero. -/
def blank (size : Size) (format : PixelFormat) : Except Failure Image :=
  ifHeld size format fun held => .ok {
    size, format, held
    data := Array.replicate (byteCount size format) 0
    packed := by simp }

/-- The image of the given bytes, which must be exactly those of its pixels. -/
def ofBytes (size : Size) (format : PixelFormat) (data : Bytes) : Except Failure Image :=
  ifHeld size format fun held =>
    if packed : data.size = byteCount size format then
      .ok { size, format, data, packed, held }
    else
      .error (.error (.bufferTooSmall data.size (byteCount size format)))

/-- The image of the given 16-bit samples. -/
def ofSamples (size : Size) (format : PixelFormat) (samples : List UInt16) :
    Except Failure Image :=
  if format.depth = .integer .sixteen then
    ofBytes size format (Bytes.ofSamples samples)
  else
    .error (.error (.unusableFormat (format.name ++ " is not a 16-bit format")))

/-- The image whose bytes are given by row and position in the row. -/
def ofFn (size : Size) (format : PixelFormat) (f : Nat → Nat → UInt8) : Except Failure Image :=
  ifHeld size format fun held =>
    let width := format.rowBytes size.width
    .ok {
      size, format, held
      data := Array.ofFn fun i : Fin (byteCount size format) => f (i / width) (i % width)
      packed := by simp }

/-- A test image with structure along both axes. -/
def pattern (size : Size) (format : PixelFormat) : Except Failure Image :=
  ofFn size format fun y x => UInt8.ofNat (x * 13 + y * 29 + (x ^^^ y) * 3)

def row? (img : Image) (y : Nat) : Option Bytes := img.data.slice? (y * img.stride) img.stride

def samples (img : Image) : List UInt16 := img.data.toSamples

/-- The image with byte `i` replaced. -/
def setByte (img : Image) (i : Nat) (b : UInt8) : Image :=
  { img with
    data := img.data.setIfInBounds i b
    packed := by simp [img.packed] }

def view (img : Image) : View := ⟨img.size, img.format, img.stride, img.data⟩

def source {σ : Type} (img : Image) : Source σ := img.view.source

instance : BEq Image where
  beq a b := a.size == b.size && a.format == b.format && a.data == b.data

end Image

namespace Source

variable {σ : Type}

/-- The image of all pixels of a source, from one request. A source without
pixels is not asked. -/
def drain (src : Source σ) : Pull σ Image := fun s =>
  match Image.blank src.size src.format with
  | .error e => ⟨.error e, s, []⟩
  | .ok img =>
    if img.data.isEmpty then
      ⟨.ok img, s, []⟩
    else
      let reply := src.copy ⟨Region.ofSize img.size, img.stride⟩ img.data s
      ⟨reply.result.map fun _ =>
        { img with
          data := reply.buffer
          packed := (src.size_copy ..).trans img.packed },
        reply.state, reply.events⟩

end Source

end Resampler
