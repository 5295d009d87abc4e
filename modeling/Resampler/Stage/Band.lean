import Resampler.Source

/-!
The sliding window of a resampling stage.

The window holds consecutive rows of the source, each already convolved
horizontally and, where asked for, also as it came. When the window moves
forward onto rows that it still holds it keeps those; on any other move it
starts empty. It never holds a row that has not been fetched completely.
-/

namespace Resampler

/-- One row of the source inside a window. -/
structure Line where
  /-- the row after the horizontal pass -/
  samples : Array Int
  /-- the row as it came, if it is kept -/
  source : Option Bytes
deriving DecidableEq, Repr, Inhabited

/-- Consecutive rows of the source from row `start` on. -/
structure Band where
  start : Nat
  lines : Array Line
deriving DecidableEq, Repr, Inhabited

namespace Band

def empty : Band := ⟨0, #[]⟩

def stop (w : Band) : Nat := w.start + w.lines.size

/-- The window moved to `start`, with the rows that it holds from there on. -/
def moveTo (w : Band) (start : Nat) : Band :=
  ⟨start,
    if w.start ≤ start ∧ start < w.stop then w.lines.extract (start - w.start) w.lines.size
    else #[]⟩

/-- The window with one more row at its end. -/
def push (w : Band) (line : Line) : Band := { w with lines := w.lines.push line }

def rows (w : Band) : Array (Array Int) := w.lines.map (·.samples)

/-- Row `y` as it came, if the window holds it and keeps rows. -/
def keptRow? (w : Band) (y : Nat) : Option Bytes :=
  if w.start ≤ y then (w.lines[y - w.start]?).bind (·.source) else none

end Band

end Resampler
