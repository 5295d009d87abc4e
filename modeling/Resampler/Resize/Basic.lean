import Resampler.Image
import Resampler.Stage.Chain

/-!
Resizing.

Settings choose the stages: a resampling stage unless the source already has the
target size, and a sharpening stage if sharpening is enabled. Resizing an image
is draining the chain of those stages over it.
-/

namespace Resampler

/-- Why an image could not be resized. -/
inductive ResizeFailure (α : Type) where
  /-- an error to hand to the caller -/
  | error (cause : SetupError α)
  | outOfBounds
  | outOfMemory
deriving DecidableEq, Repr

/-- The failure of a step, with an error of the source in its own words. -/
def ResizeFailure.ofFailure {α : Type} : Failure → ResizeFailure α
  | .error cause => .error (.pixel cause)
  | .outOfBounds => .outOfBounds
  | .outOfMemory => .outOfMemory

namespace Chain

variable {α σ : Type} [Analytic α]

/-- Puts the stages that settings call for on top. -/
def forSettings (c : Chain α σ) (settings : Settings α) : Construction α (Chain α σ) := do
  .ofExcept settings.check
  let f ← .ofExcept settings.interpolation
  let resamples := c.size != settings.target
  Construction.reach
    (.pipeline c.size settings.target settings.filter resamples settings.sharpen.sharpens)
  let staged ←
    if resamples then
      c.resampled settings.target f
    else do
      let _ ← Construction.ofExcept (RowKernel.ofFormat c.format)
      pure c
  if settings.sharpen.sharpens then
    staged.sharpened settings.sharpen
  else
    return staged

end Chain

/-- The outcome of a resize, with all that was finished and all that happened on the way. -/
structure Resized (α : Type) where
  result : Except (ResizeFailure α) Image
  milestones : List (Milestone α)
  events : List Event

variable {α : Type} [Analytic α]

def Image.resize (img : Image) (settings : Settings α) : Resized α :=
  let base : Chain α Unit := .base img.source
  let built := base.forSettings settings
  match built.result with
  | .error e => ⟨.error (.error e), built.milestones, []⟩
  | .ok chain =>
    let step := chain.source.drain (chain.start ())
    ⟨step.result.mapError .ofFailure, built.milestones, step.events⟩

end Resampler
