import Resampler.Setup.Construction
import Resampler.Stage.Sharpening

/-!
Chains of stages.

A chain is a source with stages on top of it, each working on the one below.
It is a plan that never changes; what changes while pixels are produced is its
state, which has one part for each stage and, at the bottom, the state of the
source. `Chain.source` makes a source out of the whole.
-/

namespace Resampler

/-- A source with stages on top of it. -/
inductive Chain (α σ : Type) where
  | base (src : Source σ)
  | resample (below : Chain α σ) (plan : Resampling)
  | sharpen (below : Chain α σ) (plan : Sharpening α)

namespace Chain

variable {α σ : Type}

def State : Chain α σ → Type
  | base _ => σ
  | resample below _ => Resampling.State below.State
  | sharpen below _ => Resampling.State below.State

def source : (c : Chain α σ) → Source c.State
  | base src => src
  | resample below plan => plan.source below.source
  | sharpen below plan => plan.source below.source

/-- The state before the first request, with the source at the bottom in state `s`. -/
def start : (c : Chain α σ) → σ → c.State
  | base _, s => s
  | resample below _, s => .initial (below.start s)
  | sharpen below _, s => .initial (below.start s)

/-- The state of the source at the bottom. -/
def origin : (c : Chain α σ) → c.State → σ
  | base _, s => s
  | resample below _, s => below.origin s.below
  | sharpen below _, s => below.origin s.below

/-- The size of the image that the chain produces. -/
def size (c : Chain α σ) : Size := c.source.size

/-- The format of the image that the chain produces. -/
def format (c : Chain α σ) : PixelFormat := c.source.format

/-- The rows that the topmost stage has fetched by completed loads. -/
def fetchedRows : (c : Chain α σ) → c.State → Option Nat
  | base _, _ => none
  | resample _ _, s => some s.fetched
  | sharpen _ _, s => some s.fetched

/-- Puts a resampling stage with the given tables on top. -/
def withTables (c : Chain α σ) (horizontal vertical : TapTable) (keepsSource : Bool) :
    Construction α (Chain α σ) := do
  let plan ← .ofExcept (Resampling.build c.size c.format horizontal vertical keepsSource)
  Construction.take plan.windowBytes
  Construction.reach (.resampling c.size horizontal.outputSize vertical.outputSize
    horizontal.tapCount vertical.tapCount plan.kernel keepsSource)
  return c.resample plan

/-- Puts a resampling stage to a given size on top. -/
def resampled [Scalar α] (c : Chain α σ) (target : Size) (f : Interpolation α) :
    Construction α (Chain α σ) := do
  let kernel ← .ofExcept (RowKernel.ofFormat c.format)
  let horizontal ← TapTable.buildScale c.size.width.toNat target.width.toNat
    kernel.weightColors kernel.splitsAlpha f
  let vertical ← TapTable.buildScale c.size.height.toNat target.height.toNat
    kernel.weightColors kernel.splitsAlpha f
  c.withTables horizontal vertical false

def sharpened [Analytic α] (c : Chain α σ) (settings : SharpenSettings α) :
    Construction α (Chain α σ) := do
  .ofExcept settings.check
  if !settings.sharpens then
    .ofExcept (.error (.parameter .sharpenDisabled))
  let kernel ← .ofExcept (RowKernel.ofFormat c.format)
  let horizontal ← TapTable.buildBlur c.size.width.toNat settings.radius
    kernel.weightColors kernel.splitsAlpha
  let vertical ← TapTable.buildBlur c.size.height.toNat settings.radius
    kernel.weightColors kernel.splitsAlpha
  Construction.reach (.sharpening c.size settings vertical.tapCount)
  let plan ← .ofExcept (Resampling.build c.size c.format horizontal vertical true)
  Construction.take plan.windowBytes
  Construction.reach (.resampling c.size horizontal.outputSize vertical.outputSize
    horizontal.tapCount vertical.tapCount plan.kernel true)
  return c.sharpen ⟨plan, settings⟩

end Chain

end Resampler
