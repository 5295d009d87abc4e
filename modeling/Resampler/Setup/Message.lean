import Resampler.Decimal.Layout
import Resampler.Setup.Fault

/-!
The written form of the errors of construction.
-/

namespace Resampler

namespace ParameterFault

def message : ParameterFault Float → String
  | quadraticSharpness r =>
    "quadratic r must be between 0.5 and 1.0, got " ++ Decimal.inMessages.render r
  | cubicShape b c =>
    "cubic B and C must be >= 0, got B=" ++ Decimal.inMessages.render b ++ " C="
      ++ Decimal.inMessages.render c
  | noLobes => "lanczos lobe count must be > 0"
  | gaussianSigma sigma => "gaussian sigma must be > 0, got " ++ Decimal.inMessages.render sigma
  | blurFactor blur => "blur must be > 0.5 and <= 2.0, got " ++ Decimal.inMessages.render blur
  | emptyAxis input output =>
    "kernel map sizes must be > 0, got " ++ toString input ++ " -> " ++ toString output
  | noChannel => "kernel map needs at least one channel"
  | axisMismatch horizontal vertical source =>
    "maps expect " ++ toString horizontal ++ "x" ++ toString vertical ++ " input, source is "
      ++ toString source.width.toNat ++ "x" ++ toString source.height.toNat
  | sharpenAmount amount => "unsharp amount must be >= 0, got " ++ toString amount
  | sharpenRadius radius =>
    "unsharp radius must be finite and >= 0, got " ++ Decimal.inMessages.render radius
  | sharpenDisabled => "unsharp mask needs amount > 0 and radius > 0"
  | emptyTarget target =>
    "output size must be > 0, got " ++ toString target.width.toNat ++ "x"
      ++ toString target.height.toNat
  | stated text => text

end ParameterFault

/-- What the format cannot be used for. -/
def UnsupportedFault.message : UnsupportedFault → String
  | noRowKernel format => "no convolver for " ++ format
  | weightChannels kernel needed given =>
    kernel ++ " needs " ++ toString needed ++ " weight channels, map has " ++ toString given
  | stated text => text

/-- The written form of an error. An error of the source is passed on in its own words. -/
def SetupError.message : SetupError Float → String
  | parameter fault => "invalid parameter: " ++ fault.message
  | unsupported fault => "unsupported operation: " ++ fault.message
  | pixel cause => cause.message

end Resampler
