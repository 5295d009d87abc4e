import Resampler.FixedPoint

/-!
Tap tables.

A tap table describes the resampling of one axis. For each output sample it
holds a window: the first input sample that counts, and the weights of that sample
and those after it. Each sample of the window is a tap and has one weight for
each channel, the channels of a tap side by side. All windows of a table have the
same number of taps.

Windows are first laid out without regard to the ends of the axis, in a loose
table. `LooseTable.confine` then moves every window inside: a tap that would read
past an end is added to the tap of the sample at that end, so that a row with its end
samples repeated forever and a row read through the confined table give the same
sums.

Tables are described here whatever their length. Building one takes memory for its
weights first (`TapTable.buildScale`, `TapTable.buildBlur`), and comes to the table that is
described here or, where no memory is that long, to none. Lengths are counted with checks
for overflow, so that one that is too large for a word is not taken for a smaller one.
-/

namespace Resampler

/-- The window of one output sample. -/
structure Taps where
  start : Nat
  weights : Array Int
deriving DecidableEq, Repr, Inhabited

/-- The windows of all output samples of an axis. -/
structure TapTable where
  inputSize : Nat
  /-- the number of taps of each window -/
  tapCount : Nat
  channels : Nat
  windows : Array Taps
deriving DecidableEq, Repr, Inhabited

namespace TapTable

def outputSize (t : TapTable) : Nat := t.windows.size

def taps? (t : TapTable) (i : Nat) : Option Taps := t.windows[i]?

end TapTable

/-- A window that may reach past the ends of the axis. -/
structure LooseTaps where
  start : Int
  weights : Array Int
deriving DecidableEq, Repr, Inhabited

namespace LooseTaps

/-- The start of a window of `width` taps when it has been moved inside an axis. -/
def confinedStart (inputSize width : Nat) (start : Int) : Int :=
  max 0 (min start ((inputSize : Int) - width))

/-- The sample that a tap at position `p` reads when the end samples are repeated. -/
def nearestSample (inputSize : Nat) (p : Int) : Int := max 0 (min p ((inputSize : Int) - 1))

/-- The tap of the confined window that takes the weight of tap `j`. -/
def receivingTap (inputSize width : Nat) (start : Int) (j : Nat) : Nat :=
  (nearestSample inputSize (start + j) - confinedStart inputSize width start).toNat

/-- The window with the weight of every tap past an end given to the sample at that end. -/
def confine (inputSize tapCount channels : Nat) (e : LooseTaps) : Taps :=
  let width := min tapCount inputSize
  let gather (acc : Array Int) (k : Nat) : Array Int :=
    let t := receivingTap inputSize width e.start (k / channels)
    acc.modify (t * channels + k % channels) fun w =>
      Word.signed32 (w + e.weights.getD k 0)
  { start := (confinedStart inputSize width e.start).toNat
    weights := (List.range (tapCount * channels)).foldl gather
      (Array.replicate (width * channels) 0) }

end LooseTaps

/-- The windows of all output samples before any of them is moved inside. -/
structure LooseTable where
  inputSize : Nat
  /-- the number of taps of each window -/
  tapCount : Nat
  channels : Nat
  windows : Array LooseTaps
deriving DecidableEq, Repr, Inhabited

namespace LooseTable

/-- The table whose windows lie inside the axis. A window wider than the axis shrinks
to it. -/
def confine (t : LooseTable) : TapTable where
  inputSize := t.inputSize
  tapCount := min t.tapCount t.inputSize
  channels := t.channels
  windows := t.windows.map (LooseTaps.confine t.inputSize t.tapCount t.channels)

end LooseTable

/-- The weights of a window: each color channel of a tap has its color weight, and the
alpha channel, if there is one, its alpha weight. -/
def interleave (colors : Nat) (color : List Int) : Option (List Int) → Array Int
  | none => (color.flatMap fun q => List.replicate colors q).toArray
  | some alpha =>
    ((color.zip alpha).flatMap fun (q, a) => List.replicate colors q ++ [a]).toArray

end Resampler
