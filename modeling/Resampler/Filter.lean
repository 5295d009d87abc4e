import Resampler.Gaussian

/-!
Interpolations and their named presets.

An interpolation is a weighting function and a factor by which it is widened
(above 1) or narrowed (below 1). A kernel that does not reach beyond half a
sample is never widened.
-/

namespace Resampler

/-- A weighting function and the factor by which it is widened. -/
structure Interpolation (α : Type) where
  weighting : Weighting α
  blur : α

namespace Interpolation

variable {α : Type} [Scalar α]

open Scalar

def plain (w : Weighting α) : Interpolation α := ⟨w, 1.0⟩

/-- The same weighting function with another factor, more than 1/2 and at most 2. -/
def withBlur (i : Interpolation α) (blur : α) : Except (SetupError α) (Interpolation α) :=
  if lt 0.5 blur && le blur 2.0 then .ok { i with blur }
  else .error (.parameter (.blurFactor blur))

/-- The factor that is applied: narrow kernels are never widened. -/
def appliedBlur (i : Interpolation α) : α :=
  if lt 0.5 i.weighting.support then i.blur else 1.0

/-- What the alpha channel is interpolated with: the same, unless the kernel is wider
than one sample and so may ring. -/
def forAlpha (i : Interpolation α) : Interpolation α :=
  if lt 1.0 i.weighting.support then plain Weighting.hermite else i

end Interpolation

/-- A named choice of interpolation. -/
inductive Filter (α : Type) where
  | nearest
  | average
  | linear
  | hermite
  | quadratic
  | mitchell
  | catmullRom
  | cubic
  | cubicSmoother
  | lanczos
  | spline36
  | gaussian (sigma : α)
deriving DecidableEq, Repr

namespace Filter

variable {α : Type}

instance : Inhabited (Filter α) := ⟨spline36⟩

def simple : List (Filter α) :=
  [nearest, average, linear, hermite, quadratic, mitchell, catmullRom, cubic, cubicSmoother,
    lanczos, spline36]

/-- The name of a filter in settings. -/
def name : Filter α → String
  | nearest => "nearest"
  | average => "average"
  | linear => "linear"
  | hermite => "hermite"
  | quadratic => "quadratic"
  | mitchell => "mitchell"
  | catmullRom => "catmull_rom"
  | cubic => "cubic"
  | cubicSmoother => "cubic_smoother"
  | lanczos => "lanczos"
  | spline36 => "spline36"
  | gaussian _ => "gaussian"

/-- The filter without parameter that has a given name. -/
def ofName? (s : String) : Option (Filter α) := simple.find? (·.name == s)

/-- No two filters without parameter have the same name. -/
theorem ofName?_name {f : Filter α} (h : f ∈ simple) : ofName? f.name = some f := by
  cases f with
  | gaussian _ => simp [simple] at h
  | _ => rfl

def interpolation [Analytic α] : Filter α → Except (SetupError α) (Interpolation α)
  | nearest => .ok (.plain .point)
  | average => .ok (.plain .box)
  | linear => .ok (.plain .linear)
  | hermite => .ok (.plain .hermite)
  | quadratic => .ok (.plain (.quadraticOf 1.0))
  | mitchell => .ok (.plain .mitchell)
  | catmullRom => .ok (.plain .catmullRom)
  | cubic => .ok (.plain .cardinal)
  | cubicSmoother => (Interpolation.plain (.cubicOf 0.0 0.625)).withBlur 1.15
  | lanczos => .ok (.plain (.lanczosOf 3.0))
  | spline36 => .ok (.plain .spline36)
  | gaussian sigma => (Gaussian.ofSigma? sigma).map fun g => .plain g.weighting

/-- A filter for a ratio of input size to output size. -/
def ofRatio [Scalar α] (ratio : α) : Filter α :=
  if Scalar.eq ratio 1.0 then linear
  else if Scalar.lt ratio 0.5 then lanczos
  else if Scalar.lt 16.0 ratio then quadratic
  else if Scalar.lt 4.0 ratio then catmullRom
  else spline36

end Filter

end Resampler
