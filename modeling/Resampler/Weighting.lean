import Resampler.Scalar
import Resampler.Setup.Fault

/-!
Weighting functions.

A weighting function says how much a sample counts at a given distance from the
point that is being interpolated. It is symmetric, so that distances are never
negative, and it is meant to vanish from its support on. Any function will do:
the stock ones below are values of the same type as one that a caller makes up.
-/

namespace Resampler

/-- A symmetric kernel on the line. -/
structure Weighting (α : Type) where
  /-- the distance from which on the kernel is meant to vanish -/
  support : α
  /-- the value at a distance -/
  value : α → α

namespace Weighting

variable {α : Type} [Scalar α]

open Scalar

/-- Every sample of the window counts the same. With its vanishing support the
window is the nearest sample. -/
def point : Weighting α := ⟨0.000001, fun _ => 1.0⟩

/-- The average of the samples within half a sample. -/
def box : Weighting α := ⟨0.5, fun d => if le d 0.5 then 1.0 else 0.0⟩

def linear : Weighting α := ⟨1.0, fun d => if lt d 1.0 then 1.0 - d else 0.0⟩

def quadraticOf (r : α) : Weighting α where
  support := 1.5
  value d :=
    if lt d 0.5 then
      (-2.0 * r) * (d * d) + 0.5 * (r + 1.0)
    else if lt d 1.5 then
      r * (d * d) + (-2.0 * r - 0.5) * d + 0.75 * (r + 1.0)
    else
      0.0

/-- The quadratic of a sharpness between 1/2 and 1. -/
def quadratic? (r : α) : Except (SetupError α) (Weighting α) :=
  if le 0.5 r && le r 1.0 then .ok (quadraticOf r)
  else .error (.parameter (.quadraticSharpness r))

/-- The coefficients of the two pieces of a cubic kernel. -/
structure Cubic (α : Type) where
  p0 : α
  p2 : α
  p3 : α
  q0 : α
  q1 : α
  q2 : α
  q3 : α

/-- The coefficients for the shape parameters `b` and `c`. -/
def Cubic.ofShape (b c : α) : Cubic α where
  p0 := (6.0 - 2.0 * b) / 6.0
  p2 := (-18.0 + 12.0 * b + c * 6.0) / 6.0
  p3 := (12.0 - 9.0 * b - c * 6.0) / 6.0
  q0 := (8.0 * b + c * 24.0) / 6.0
  q1 := (-12.0 * b - c * 48.0) / 6.0
  q2 := (6.0 * b + c * 30.0) / 6.0
  q3 := (-b - c * 6.0) / 6.0

/-- The cubic with shape parameters `b` and `c`. Only the one where both are zero
has support 1. -/
def cubicOf (b c : α) : Weighting α :=
  let k := Cubic.ofShape b c
  let short := eq b 0.0 && eq c 0.0
  { support := if short then 1.0 else 2.0
    value := fun d =>
      if lt d 1.0 then
        k.p0 + d * d * (k.p2 + d * k.p3)
      else if !short && lt d 2.0 then
        k.q0 + d * (k.q1 + d * (k.q2 + d * k.q3))
      else
        0.0 }

/-- The cubic with shape parameters that are not negative. -/
def cubic? (b c : α) : Except (SetupError α) (Weighting α) :=
  if lt b 0.0 || lt c 0.0 then .error (.parameter (.cubicShape b c))
  else .ok (cubicOf b c)

/-- The cubic without negative lobes and with support 1. -/
def hermite : Weighting α := cubicOf 0.0 0.0

/-- The cubic halfway between blurring and ringing. -/
def mitchell : Weighting α := cubicOf (1.0 / 3.0) (1.0 / 3.0)

/-- The cubic through the samples with the least ringing. -/
def catmullRom : Weighting α := cubicOf 0.0 0.5

def cardinal : Weighting α := cubicOf 0.0 1.0

/-- The spline with three pieces on each side. -/
def spline36 : Weighting α where
  support := 3.0
  value d :=
    if lt d 1.0 then
      ((13.0 / 11.0 * d - 453.0 / 209.0) * d - 3.0 / 209.0) * d + 1.0
    else if lt d 2.0 then
      let e := d - 1.0
      ((-6.0 / 11.0 * e + 270.0 / 209.0) * e - 156.0 / 209.0) * e
    else if lt d 3.0 then
      let e := d - 2.0
      ((1.0 / 11.0 * e - 45.0 / 209.0) * e + 26.0 / 209.0) * e
    else
      0.0

/-- The step function that has a value below each limit in turn, and 0 after the last. -/
def steps (support : α) (table : List (α × α)) : Weighting α where
  support := support
  value d := ((table.find? fun step => lt d step.1).map (·.2)).getD 0.0

end Weighting

namespace Weighting

variable {α : Type} [Analytic α]

open Scalar

/-- The ratio of a circle's circumference to its diameter. -/
def pi : α := 3.141592653589793

/-- The sinc of a given number of lobes, windowed by its own middle lobe. -/
def lanczosOf (lobes : α) : Weighting α where
  support := lobes
  value d :=
    if eq d 0.0 then
      1.0
    else if lt d lobes then
      let x := d * pi
      (lobes * Analytic.sin x * Analytic.sin (x / lobes)) / (x * x)
    else
      0.0

/-- The windowed sinc of at least one lobe. -/
def lanczos? (lobes : UInt32) : Except (SetupError α) (Weighting α) :=
  if lobes = 0 then .error (.parameter .noLobes)
  else .ok (lanczosOf (ofNat lobes.toNat))

end Weighting

end Resampler
