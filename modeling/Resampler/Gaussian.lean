import Resampler.Weighting

/-!
Gaussian kernels.

A bell of deviation `sigma` is cut off at three deviations. For blurring, it is
sampled at the integers within its reach and divided by the sum: as a whole by
`Gaussian.weights`, or as one half whose far tail is gathered in its last entry
by `Gaussian.halfWeights`. Both depend on the bell through its values at
integer distances only, and are written for any such values.
-/

namespace Resampler

namespace DiscreteKernel

variable {α : Type} [Scalar α]

/-- The values at the distances from `-reach` to `reach`, divided by their sum. -/
def full (bell : Nat → α) (reach : Nat) : List α :=
  let taps := (List.range (2 * reach + 1)).map fun j : Nat => bell ((j : Int) - reach).natAbs
  let sum := Scalar.sum taps
  taps.map (· / sum)

/-- What the sampling of one half of a bell has gathered so far: the sum over
both halves, and the values by distance, those of `len` and more in the last place. -/
structure Gathered (α : Type) where
  total : α
  half : Array α

/-- Adds the value at distance `d`, which counts on both sides. -/
def Gathered.add (bell : Nat → α) (len : Nat) (g : Gathered α) (d : Nat) : Gathered α :=
  let w := bell d
  ⟨g.total + 2.0 * w, g.half.modify (min d len) (· + w)⟩

/-- The values at the distances below `len`, and the sum of the values at `len` and
beyond up to `reach`, all divided by the sum over both sides. -/
def half (bell : Nat → α) (reach len : Nat) : Array α :=
  let start : Gathered α := ⟨bell 0, (Array.replicate (len + 1) (0.0 : α)).setIfInBounds 0 (bell 0)⟩
  let g := (List.range' 1 reach).foldl (Gathered.add bell len) start
  g.half.map (· / g.total)

end DiscreteKernel

/-- A Gaussian of deviation `sigma` and height `scale`. -/
structure Gaussian (α : Type) where
  sigma : α
  scale : α

namespace Gaussian

variable {α : Type} [Analytic α]

open Scalar

/-- The Gaussian of a positive and finite deviation. -/
def ofSigma? (sigma : α) : Except (SetupError α) (Gaussian α) :=
  if !lt 0.0 sigma || !isFinite sigma then
    .error (.parameter (.gaussianSigma sigma))
  else
    .ok ⟨sigma, 1.0 / Analytic.sqrt (2.0 * Weighting.pi * sigma * sigma)⟩

/-- The value of the bell at a distance. -/
def bell (g : Gaussian α) (d : α) : α :=
  g.scale * Analytic.exp (-(d * d) / (2.0 * g.sigma * g.sigma))

def support (g : Gaussian α) : α := g.sigma * 3.0

/-- The bell cut off at its support. -/
def weighting (g : Gaussian α) : Weighting α where
  support := g.support
  value d := if lt d g.support then g.bell d else 0.0

/-- The largest distance at which the bell is sampled. -/
def reach (g : Gaussian α) : Nat := (ceil g.support).toNat

def tap (g : Gaussian α) (d : Nat) : α := g.bell (ofNat d)

/-- The weights of the taps within reach, the middle one at distance 0. -/
def weights (g : Gaussian α) : List α := DiscreteKernel.full g.tap g.reach

/-- The weights at the distances below `len`, and the sum of those from `len` on. -/
def halfWeights (g : Gaussian α) (len : Nat) : Array α := DiscreteKernel.half g.tap g.reach len

end Gaussian

end Resampler
