import Resampler.Settings
import Resampler.Stage.Resampling

/-!
The sharpening stage.

A sharpening stage blurs its source with a resampling stage that keeps the rows
of its window as they came, and combines each blurred row with the matching
sharp row of the same window. The window of a blur always contains the row that
it is centered on, so each row of the source is fetched once for both purposes.
-/

namespace Resampler

/-- The tables of a sharpening stage. -/
structure Sharpening (α : Type) where
  blur : Resampling
  settings : SharpenSettings α

namespace Sharpening

variable {α σ : Type}

/-- The pixels from column `x` on of output row `y`. -/
def row (plan : Sharpening α) (below : Source σ) (y x width : Nat) :
    Pull (Resampling.State σ) Bytes := do
  let blurred ← plan.blur.row below y x width
  let kept ← Pull.read fun s : Resampling.State σ => s.window.keptRow? y
  match kept with
  | none => Pull.fail (.error (.other ("row " ++ toString y ++ " missing from blur window")))
  | some row =>
    let bpp := plan.blur.format.bytesPerPixel
    let sharp ← Pull.lookup (row.slice? (x * bpp) (width * bpp))
    Pull.lookup (plan.blur.kernel.sharpenRow? sharp blurred plan.settings.amount.toInt
      plan.settings.threshold.toNat)

def source (plan : Sharpening α) (below : Source σ) : Source (Resampling.State σ) :=
  Source.ofRows plan.blur.size plan.blur.format (fun region => [.sharpenRequest region])
    fun region y => plan.row below y region.x.toNat region.width.toNat

end Sharpening

end Resampler
