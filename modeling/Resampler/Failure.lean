import Resampler.Pixel.Region

/-!
What can go wrong while pixels are produced.

A `PixelError` travels unchanged through every stage between the source that
reports it and the caller. A `Failure` is the outcome of one step: a reported
error, or one of two things that cannot be reported because nothing can go on
after them. An access outside a table is something that no accepted pipeline should
ever produce, and it is kept apart so that this can be said and proved.
-/

namespace Resampler

/-- An error reported by a source of pixels. -/
inductive PixelError where
  | outsideImage (region : Region) (size : Size)
  | unusableFormat (description : String)
  /-- the size of a buffer cannot be represented -/
  | uncountable (size : Size) (reason : String)
  /-- the distance of row starts is less than a row -/
  | strideTooShort (stride least : Nat) (width : UInt32)
  /-- the buffer cannot hold what is asked for -/
  | bufferTooSmall (size required : Nat)
  | other (text : String)
deriving DecidableEq, Repr, Inhabited

namespace PixelError

def message : PixelError → String
  | outsideImage region size =>
    "region " ++ region.render ++ " exceeds image bounds " ++ toString size.width.toNat ++ "x"
      ++ toString size.height.toNat
  | unusableFormat description => "unsupported pixel format: " ++ description
  | uncountable size reason =>
    "invalid dimensions: " ++ toString size.width.toNat ++ "x" ++ toString size.height.toNat
      ++ " (" ++ reason ++ ")"
  | strideTooShort stride least width =>
    "stride " ++ toString stride ++ " is less than minimum " ++ toString least
      ++ " for width " ++ toString width.toNat
  | bufferTooSmall size required =>
    "buffer of " ++ toString size ++ " bytes is too small, " ++ toString required
      ++ " bytes required"
  | other text => text

/-- Whether the error speaks of a malformed request rather than of a failing source. -/
def blamesRequest : PixelError → Bool
  | outsideImage .. | strideTooShort .. | bufferTooSmall .. => true
  | unusableFormat .. | uncountable .. | other .. => false

/-- A buffer of an image of the given size has more bytes than can be counted. -/
def tooManyBytes (size : Size) : PixelError :=
  .uncountable size "buffer size overflows"

end PixelError

/-- The outcome of a step that does not succeed. -/
inductive Failure where
  /-- an error to hand to the caller -/
  | error (cause : PixelError)
  /-- an index outside its table -/
  | outOfBounds
  /-- more bytes than memory can hold -/
  | outOfMemory
deriving DecidableEq, Repr, Inhabited

end Resampler
