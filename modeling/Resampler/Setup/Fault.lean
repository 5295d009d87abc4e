import Resampler.Failure

/-!
What can be wrong with a stage before it has produced a single pixel.

A fault names its cause and the values that show it; `SetupError` sorts the
faults into parameters out of range, formats that are not supported, and errors
of the source that a stage is built over. The numbers in a fault are those of
the geometry.
-/

namespace Resampler

/-- A parameter out of its range. -/
inductive ParameterFault (α : Type) where
  | quadraticSharpness (r : α)
  /-- the two shape parameters of a cubic kernel -/
  | cubicShape (b c : α)
  | noLobes
  | gaussianSigma (sigma : α)
  /-- the factor by which a kernel is widened -/
  | blurFactor (blur : α)
  | emptyAxis (input output : Nat)
  | noChannel
  /-- tap tables made for another source -/
  | axisMismatch (horizontal vertical : Nat) (source : Size)
  | sharpenAmount (amount : Int)
  | sharpenRadius (radius : α)
  /-- a sharpening stage that would not sharpen -/
  | sharpenDisabled
  | emptyTarget (target : Size)
  | stated (text : String)
deriving DecidableEq, Repr

/-- Something that pixels of some format cannot be used for. -/
inductive UnsupportedFault where
  /-- there is no row kernel for the format -/
  | noRowKernel (format : String)
  /-- a tap table with the wrong number of channels -/
  | weightChannels (kernel : String) (needed given : Nat)
  | stated (text : String)
deriving DecidableEq, Repr

/-- An error found while a stage is built. -/
inductive SetupError (α : Type) where
  | parameter (fault : ParameterFault α)
  | unsupported (fault : UnsupportedFault)
  | pixel (cause : PixelError)
deriving DecidableEq, Repr

end Resampler
