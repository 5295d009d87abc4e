import Resampler.Pixel.Sample
import Resampler.Taps.Blur

/-!
The memory that tap tables take.

The weights of a table lie in memory as one run of 32-bit words, one for each channel
of each tap of each window. Where sizes come from a caller who may ask for anything, it
is known before the table is laid out whether there can be such a run at all. A table that
is refused for another reason takes no memory. The run is taken for the loose table; the one
that is confined is never longer, because its windows have no more taps.
-/

namespace Resampler.TapTable

variable {α : Type}

/-- Bytes of the weights of a table. -/
def weightBytes (windows taps channels : Nat) : Nat := 4 * (windows * taps * channels)

/-- Bytes of the weights of a table that changes the number of samples. -/
def scaleBytes [Scalar α] (input output colors : Nat) (alpha : Bool) (f : Interpolation α) : Nat :=
  if input = 0 ∨ colors = 0 then 0
  else weightBytes output (ScaleAxis.of input output f).tapCount (colors + alpha.toNat)

/-- Bytes of the weights of a table that blurs. -/
def blurBytes [Analytic α] (size : Nat) (radius : α) (colors : Nat) (alpha : Bool) : Nat :=
  match Gaussian.ofSigma? radius with
  | .error _ => 0
  | .ok g =>
    let taps := if LooseTable.coversAxis g.reach size then size else 2 * g.reach + 1
    if colors = 0 then 0 else weightBytes size taps (colors + alpha.toNat)

end Resampler.TapTable
