import Resampler.Failure
import Resampler.Pixel.Format
import Resampler.Word

/-!
Requests for pixels.

A request names a rectangle and the distance in bytes between the starts of
two rows in the caller's buffer. `Request.check` decides whether a source of a
given size and format may serve it into a buffer of a given length. The last
row needs no padding, and a request without rows needs no buffer at all.
-/

namespace Resampler

/-- A rectangle of pixels, to be laid out with one row every `stride` bytes. -/
structure Request where
  region : Region
  stride : Nat
deriving DecidableEq, Repr, Inhabited

namespace Request

/-- Bytes of the buffer that a request with rows of `rowBytes` bytes reaches. -/
def required (q : Request) (rowBytes : Nat) : Nat :=
  if q.region.height.toNat = 0 then 0 else (q.region.height.toNat - 1) * q.stride + rowBytes

/-- The bytes of one requested row, or the first thing that is wrong with the request. -/
def check (q : Request) (size : Size) (format : PixelFormat) (bufferSize : Nat) :
    Except PixelError Nat :=
  let rowBytes := format.rowBytes q.region.width
  if !(Region.ofSize size).contains q.region then
    .error (.outsideImage q.region size)
  else if q.stride < rowBytes then
    .error (.strideTooShort q.stride rowBytes q.region.width)
  else if Word.limit64 ≤ q.required rowBytes then
    .error (.tooManyBytes ⟨q.region.width, q.region.height⟩)
  else if bufferSize < q.required rowBytes then
    .error (.bufferTooSmall bufferSize (q.required rowBytes))
  else
    .ok rowBytes

/-- The request for a whole image without padding. -/
def whole (size : Size) (format : PixelFormat) : Request :=
  ⟨Region.ofSize size, format.rowBytes size.width⟩

end Request

end Resampler
