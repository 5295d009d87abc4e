import Resampler.Resize.Basic

/-!
Resizing in strips.

The rows of the target are cut into strips that can be made independently, each
through stages of its own over the same image. The tables of the resampling stage
are made once and shared. A strip has about a quarter of one thread's share of
the rows, but never only a few.
-/

namespace Resampler

namespace Strips

/-- The least number of rows of a strip, unless the image has fewer. -/
def leastRows : Nat := 16

def rows (height threads : Nat) : Nat :=
  let share := max threads 1 * 4
  min (max ((height + share - 1) / share) leastRows) (max height 1)

/-- The first row and the number of rows of each strip. -/
def cut (height rows : Nat) : List (Nat × Nat) :=
  (List.range ((height + rows - 1) / rows)).map fun i =>
    (i * rows, min rows (height - i * rows))

end Strips

variable {α : Type} [Analytic α]

/-- What the strips of one resize share. -/
structure StripPlan where
  view : View
  tables : Option (TapTable × TapTable)

namespace StripPlan

def build (img : Image) (settings : Settings α) : Except (SetupError α) StripPlan := do
  settings.check
  let kernel ← RowKernel.ofFormat img.format
  if img.size = settings.target then
    return ⟨img.view, none⟩
  let f ← settings.interpolation
  let horizontal ← TapTable.scale img.size.width.toNat settings.width.toNat
    kernel.weightColors kernel.splitsAlpha f
  let vertical ← TapTable.scale img.size.height.toNat settings.height.toNat
    kernel.weightColors kernel.splitsAlpha f
  return ⟨img.view, some (horizontal, vertical)⟩

def chain (plan : StripPlan) (settings : Settings α) : Construction α (Chain α Unit) := do
  let base : Chain α Unit := .base plan.view.source
  let staged ← match plan.tables with
    | some (horizontal, vertical) => base.withTables horizontal vertical false
    | none => pure base
  if settings.sharpen.sharpens then
    staged.sharpened settings.sharpen
  else
    return staged

/-- The bytes of `n` rows of the target from row `y` on. -/
def strip (plan : StripPlan) (settings : Settings α) (y n : Nat) :
    Except (ResizeFailure α) Bytes := do
  let chain ← (plan.chain settings).result.mapError ResizeFailure.error
  let stride := plan.view.format.rowBytes settings.width
  let region : Region := ⟨0, UInt32.ofNat y, settings.width, UInt32.ofNat n⟩
  let reply := chain.source.copy ⟨region, stride⟩ (Array.replicate (stride * n) 0) (chain.start ())
  reply.result.mapError .ofFailure
  return reply.buffer

end StripPlan

/-- Resizes an image in strips, as many as suit a number of threads. -/
def Image.resizeInStrips (img : Image) (settings : Settings α) (threads : Nat) :
    Except (ResizeFailure α) Image := do
  let plan ← (StripPlan.build img settings).mapError ResizeFailure.error
  let blank ← (Image.blank settings.target img.format).mapError ResizeFailure.ofFailure
  let height := settings.height.toNat
  let parts ← (Strips.cut height (Strips.rows height threads)).mapM fun (y, n) =>
    plan.strip settings y n
  let data := parts.foldl (· ++ ·) #[]
  if packed : data.size = Image.byteCount blank.size blank.format then
    return { blank with data, packed }
  else
    throw .outOfBounds

end Resampler
