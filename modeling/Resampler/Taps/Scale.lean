import Resampler.Filter
import Resampler.Taps.Table

/-!
Tap tables that change the number of samples.

Output sample `i` has its center between the input samples, at the place that
keeps the two axes' middles aligned. When the axis shrinks, the kernel is
stretched by the same factor, so that it covers every sample that falls to an
output sample. The window holds the samples within the kernel's reach on both
sides of the center; a reach of more than half the axis is cut to that.
-/

namespace Resampler

open Scalar

/-- The geometry of the windows along one axis. -/
structure ScaleAxis (α : Type) where
  input : α
  output : α
  /-- the support of the weighting function -/
  support : α
  /-- the factor by which it is widened -/
  blur : α

namespace ScaleAxis

variable {α : Type} [Scalar α]

/-- The factor from output distances to kernel distances, at most 1. -/
def shrink (a : ScaleAxis α) : α := least (a.output / a.input) 1.0

/-- The distance from the center to the ends of the window. -/
def reach (a : ScaleAxis α) : α :=
  least (a.support / a.shrink * a.blur) (a.input / 2.0)

def tapCount (a : ScaleAxis α) : Nat := max (ceil (a.reach * 2.0)).toNat 1

/-- What is added to the center for a kernel that picks a single sample. -/
def offset (a : ScaleAxis α) : α := if lt a.support 0.1 then 0.5 else 0.0

/-- The center of output sample `i` on the input axis. -/
def center (a : ScaleAxis α) (i : Nat) : α :=
  a.input / a.output * ofNat i + (a.input - a.output) / (a.output * 2.0) + a.offset

/-- The first tap of output sample `i`, which may lie before the axis. -/
def start (a : ScaleAxis α) (i : Nat) : Int :=
  floor (a.center i + a.reach) - a.tapCount + 1

/-- The values of an interpolation at the taps of output sample `i`. -/
def window (a : ScaleAxis α) (f : Interpolation α) (i : Nat) : List α :=
  let start := a.start i
  let center := a.center i
  let scale := a.shrink / f.appliedBlur
  (List.range a.tapCount).map fun j : Nat =>
    f.weighting.value (abs (ofInt (start + j) - center) * scale)

/-- The fixed-point weights of an interpolation for output sample `i`. -/
def weights (a : ScaleAxis α) (f : Interpolation α) (i : Nat) : List Int :=
  FixedPoint.quantize (FixedPoint.normalize (a.window f i))

def of (input output : Nat) (f : Interpolation α) : ScaleAxis α where
  input := ofNat input
  output := ofNat output
  support := f.weighting.support
  blur := f.appliedBlur

end ScaleAxis

/-- An axis has samples, and a table has channels. -/
def checkAxis {α : Type} (input output colors : Nat) : Except (SetupError α) Unit :=
  if input = 0 ∨ output = 0 then
    .error (.parameter (.emptyAxis input output))
  else if colors = 0 then
    .error (.parameter .noChannel)
  else
    .ok ()

namespace LooseTable

variable {α : Type} [Scalar α]

/-- The windows for resampling from `input` to `output` samples. Color channels use
the interpolation as it is, an alpha channel the one that cannot ring. Memory for
the weights of all of them is taken by `TapTable.buildScale`. -/
def scale (input output colors : Nat) (alpha : Bool) (f : Interpolation α) :
    Except (SetupError α) LooseTable := do
  checkAxis input output colors
  let axis := ScaleAxis.of input output f
  let taps (i : Nat) : LooseTaps :=
    { start := axis.start i
      weights := interleave colors (axis.weights f i)
        (if alpha then some (axis.weights f.forAlpha i) else none) }
  return {
    inputSize := input
    tapCount := axis.tapCount
    channels := colors + alpha.toNat
    windows := ((List.range output).map taps).toArray }

end LooseTable

/-- The tap table for resampling from `input` to `output` samples. -/
def TapTable.scale {α : Type} [Scalar α] (input output colors : Nat) (alpha : Bool)
    (f : Interpolation α) : Except (SetupError α) TapTable :=
  (LooseTable.scale input output colors alpha f).map LooseTable.confine

end Resampler
