import Resampler.RowKernel
import Resampler.Stage.Band

/-!
The resampling stage.

A resampling stage is a source over another source. To make a row it looks below
the row's vertical window, moves its own window there, fetches the rows that
are missing one at a time from top to bottom, and blends the window into pixels.
A failing source interrupts this at a row; the rows fetched before it stay, so
that the next attempt goes on with the row that failed.
-/

namespace Resampler

/-- The tables of a resampling stage. -/
structure Resampling where
  sourceSize : Size
  format : PixelFormat
  kernel : RowKernel
  horizontal : TapTable
  vertical : TapTable
  /-- whether the window also keeps its rows as they came -/
  keepsSource : Bool

namespace Resampling

def size (plan : Resampling) : Size :=
  ⟨UInt32.ofNat plan.horizontal.outputSize, UInt32.ofNat plan.vertical.outputSize⟩

/-- Samples of a line after the horizontal pass. -/
def lineSamples (plan : Resampling) : Nat := plan.horizontal.outputSize * plan.kernel.channels

/-- Bytes of a row of the source. -/
def sourceBytes (plan : Resampling) : Nat := plan.format.rowBytes plan.sourceSize.width

/-- Bytes of the two runs of memory of the window: its lines, one 32-bit word for each
sample, and the rows of the source if they are kept. -/
def windowBytes (plan : Resampling) : List Nat :=
  [4 * (plan.vertical.tapCount * plan.lineSamples),
    (if plan.keepsSource then plan.vertical.tapCount else 0) * plan.sourceBytes]

/-- The tables for a source of a given size and format, if they fit it. -/
def build {α : Type} (sourceSize : Size) (format : PixelFormat) (horizontal vertical : TapTable)
    (keepsSource : Bool) : Except (SetupError α) Resampling := do
  let kernel ← RowKernel.ofFormat format
  kernel.checkTable horizontal
  kernel.checkTable vertical
  if horizontal.inputSize ≠ sourceSize.width.toNat ∨
      vertical.inputSize ≠ sourceSize.height.toNat then
    throw (.parameter
      (.axisMismatch horizontal.inputSize vertical.inputSize sourceSize))
  return { sourceSize, format, kernel, horizontal, vertical, keepsSource }

/-- The state of a resampling stage over a source with states `σ`. -/
structure State (σ : Type) where
  below : σ
  window : Band
  /-- the rows of all completed loads that came from the source -/
  fetched : Nat

def State.initial {σ : Type} (s : σ) : State σ := ⟨s, .empty, 0⟩

variable {σ β : Type}

/-- An action on the source, as an action of the stage. -/
def onSource (m : Pull σ β) : Pull (State σ) β := fun s =>
  let step := m s.below
  ⟨step.result, { s with below := step.state }, step.events⟩

/-- Fetches row `y` and puts it at the end of the window. -/
def fetchLine (plan : Resampling) (below : Source σ) (y : Nat) : Pull (State σ) Unit := do
  let raw ← onSource (below.fetchRow y)
  let samples ← Pull.lookup (plan.kernel.convolveRow? raw plan.horizontal)
  let line : Line := ⟨samples, if plan.keepsSource then some raw else none⟩
  Pull.update fun s => { s with window := s.window.push line }

/-- Fetches `n` rows from row `y` on. -/
def fetchLines (plan : Resampling) (below : Source σ) (y : Nat) : Nat → Pull (State σ) Unit
  | 0 => pure ()
  | n + 1 => do
    plan.fetchLine below y
    plan.fetchLines below (y + 1) n

/-- Moves the window to `start` and completes it. -/
def load (plan : Resampling) (below : Source σ) (start : Nat) : Pull (State σ) Unit := do
  Pull.update fun s => { s with window := s.window.moveTo start }
  let reused ← Pull.read fun s : State σ => s.window.lines.size
  let missing := plan.vertical.tapCount - reused
  plan.fetchLines below (start + reused) missing
  Pull.update fun s => { s with fetched := s.fetched + missing }
  if 0 < missing then
    Pull.report (.windowLoad start reused missing)

/-- The pixels from column `x` on of output row `y`. -/
def row (plan : Resampling) (below : Source σ) (y x width : Nat) : Pull (State σ) Bytes := do
  let taps ← Pull.lookup (plan.vertical.taps? y)
  plan.load below taps.start
  let rows ← Pull.read fun s : State σ => s.window.rows
  Pull.lookup (plan.kernel.blendRow? rows taps.weights x width)

def source (plan : Resampling) (below : Source σ) : Source (State σ) :=
  Source.ofRows plan.size plan.format (fun region => [.resampleRequest region]) fun region y =>
    plan.row below y region.x.toNat region.width.toNat

end Resampling

end Resampler
