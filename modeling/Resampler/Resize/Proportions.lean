import Resampler.Pixel.Region
import Resampler.Scalar
import Resampler.Word

/-!
Sizes that keep the proportions of an image.
-/

namespace Resampler.Size

open Scalar

variable {α : Type} [Scalar α]

/-- The length `len * scale`, rounded, at least 1 and at most what a word can hold. -/
def scaledLength (len scale : α) : UInt32 := Word.saturateUnsigned32 (max (round (len * scale)) 1)

/-- The size of `source` scaled by the factor that `pick` takes of those for the two axes.
A source without pixels has no proportions to keep. -/
def scaledTo (pick : α → α → α) (source box : Size) : Size :=
  if source.width = 0 ∨ source.height = 0 then
    ⟨max box.width 1, max box.height 1⟩
  else
    let w : α := ofNat source.width.toNat
    let h : α := ofNat source.height.toNat
    let scale := pick (ofNat box.width.toNat / w) (ofNat box.height.toNat / h)
    ⟨scaledLength w scale, scaledLength h scale⟩

variable (α) in
/-- The largest size with the proportions of `source` that fits into `box`. -/
def within (source box : Size) : Size := scaledTo (least : α → α → α) source box

variable (α) in
/-- The smallest size with the proportions of `source` that covers `box`. -/
def covering (source box : Size) : Size := scaledTo (greatest : α → α → α) source box

end Resampler.Size
