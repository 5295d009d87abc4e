import Resampler.Filter
import Resampler.Pixel.Region

/-!
Settings of a resize.

Settings are plain data; nothing is checked when they are written down. What
they say is checked as a whole by `Settings.check`, and `Settings.ofSizes`
chooses them from the ratio of the source's size to the target's.
-/

namespace Resampler

open Scalar

/-- How an image is sharpened. -/
structure SharpenSettings (α : Type) where
  /-- hundredths of the difference to the blurred image that are added again -/
  amount : Int32
  /-- the deviation of the blur in pixels -/
  radius : α
  /-- the least difference, on the 8-bit scale, that is sharpened -/
  threshold : UInt8
deriving DecidableEq, Repr

namespace SharpenSettings

variable {α : Type} [Scalar α]

def off : SharpenSettings α := ⟨0, 0.0, 0⟩

def sharpens (s : SharpenSettings α) : Bool := 0 < s.amount && lt 0.0 s.radius

/-- The amount is not negative, and the radius is finite and not negative. -/
def check (s : SharpenSettings α) : Except (SetupError α) Unit :=
  if s.amount < 0 then
    .error (.parameter (.sharpenAmount s.amount.toInt))
  else if !isFinite s.radius || lt s.radius 0.0 then
    .error (.parameter (.sharpenRadius s.radius))
  else
    .ok ()

/-- The sharpening for a ratio of input size to output size: the more an image shrinks,
the more contrast it loses between neighbours. -/
def ofRatio (ratio : α) : SharpenSettings α :=
  if eq ratio 1.0 then off
  else if lt ratio 0.5 then ⟨40, 1.5, 0⟩
  else if lt ratio 1.0 then ⟨30, 1.0, 0⟩
  else if lt ratio 2.0 then ⟨30, 0.75, 4⟩
  else if lt ratio 4.0 then ⟨75, 0.5, 2⟩
  else if lt ratio 6.0 then ⟨50, 0.75, 2⟩
  else if lt ratio 8.0 then ⟨100, 0.6, 1⟩
  else if lt ratio 10.0 then ⟨125, 0.5, 0⟩
  else ⟨150, 0.5, 0⟩

end SharpenSettings

/-- The target of a resize and how it is reached. -/
structure Settings (α : Type) where
  width : UInt32
  height : UInt32
  filter : Filter α
  /-- the factor by which the filter's kernel is widened; 1 leaves it as it is -/
  blur : α
  sharpen : SharpenSettings α
deriving DecidableEq, Repr

namespace Settings

variable {α : Type}

def target (s : Settings α) : Size := ⟨s.width, s.height⟩

/-- Settings that say nothing but the size. -/
def ofSize [Scalar α] (size : Size) : Settings α :=
  ⟨size.width, size.height, default, 1.0, .off⟩

/-- Settings chosen for the change of size along the axis where it is larger. -/
def ofSizes [Scalar α] (source target : Size) : Settings α :=
  let ratio (input output : UInt32) : α := ofNat input.toNat / ofNat (max output 1).toNat
  let rx := ratio source.width target.width
  let ry := ratio source.height target.height
  let r := if le (abs (ry - 1.0)) (abs (rx - 1.0)) then rx else ry
  { ofSize target with filter := .ofRatio r, sharpen := .ofRatio r }

/-- The interpolation that the filter and the factor name. -/
def interpolation [Analytic α] (s : Settings α) : Except (SetupError α) (Interpolation α) := do
  let i ← s.filter.interpolation
  if eq s.blur 1.0 then return i
  i.withBlur s.blur

/-- The target has pixels, the filter and the factor name an interpolation, and the
sharpening is in range. -/
def check [Analytic α] (s : Settings α) : Except (SetupError α) Unit := do
  if s.width = 0 ∨ s.height = 0 then
    throw (.parameter (.emptyTarget s.target))
  let _ ← s.interpolation
  s.sharpen.check

end Settings

end Resampler
