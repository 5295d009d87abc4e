import Resampler.Taps.Scale

/-!
Tap tables that blur.

A blur keeps the number of samples. Each window is a discrete Gaussian around
its output sample. A kernel at least as wide as the axis is not laid out tap by
tap: every window then is the whole axis, and what falls past an end is summed
onto the sample at that end before the weights become fixed-point numbers, so
that the size of the table depends on the axis only.
-/

namespace Resampler

namespace DiscreteKernel

variable {α : Type} [Scalar α]

/-- The sums of each entry and all that follow it. -/
def suffixSums : List α → List α
  | [] => []
  | x :: xs =>
    match suffixSums xs with
    | [] => [x]
    | s :: ss => (x + s) :: s :: ss

/-- The weights of the window of output sample `i` when it is the whole axis: each end
sample carries all that lies at it and beyond. `tails` are the suffix sums of `half`. -/
def onAxis (half tails : Array α) (size i : Nat) : List α :=
  (List.range size).map fun s =>
    if s + 1 = size then tails.getD (size - 1 - i) 0.0
    else if s = 0 then tails.getD i 0.0
    else half.getD (if i ≤ s then s - i else i - s) 0.0

end DiscreteKernel

namespace LooseTable

variable {α : Type} [Analytic α]

/-- Whether a kernel of a given reach is laid out as whole windows. -/
def coversAxis (reach size : Nat) : Bool := size ≤ 2 * reach

/-- The windows of a kernel narrower than the axis. -/
def narrow (g : Gaussian α) (size channels : Nat) : LooseTable :=
  let taps := FixedPoint.quantize g.weights
  let weights := interleave channels taps none
  { inputSize := size
    tapCount := taps.length
    channels
    windows := ((List.range size).map fun i =>
      ⟨(i : Int) - (taps.length / 2 : Nat), weights⟩).toArray }

/-- The weights of every window of a kernel at least as wide as the axis. An axis of one
sample needs no kernel. -/
def wideWeights (g : Gaussian α) (size : Nat) : List (List Int) :=
  if size = 1 then [[FixedPoint.one]]
  else
    let half := g.halfWeights size
    let tails := (DiscreteKernel.suffixSums half.toList).toArray
    (List.range size).map fun i => FixedPoint.quantize (DiscreteKernel.onAxis half tails size i)

/-- The windows of a kernel at least as wide as the axis. -/
def wide (g : Gaussian α) (size channels : Nat) : LooseTable where
  inputSize := size
  tapCount := size
  channels
  windows := ((wideWeights g size).map fun ws => ⟨0, interleave channels ws none⟩).toArray

/-- The windows for blurring `size` samples with deviation `radius`. All channels use
the same kernel. Memory for the weights of all windows is taken by `TapTable.buildBlur`. -/
def blur (size : Nat) (radius : α) (colors : Nat) (alpha : Bool) :
    Except (SetupError α) LooseTable := do
  checkAxis size size colors
  let g ← Gaussian.ofSigma? radius
  let channels := colors + alpha.toNat
  return if coversAxis g.reach size then wide g size channels else narrow g size channels

end LooseTable

/-- The tap table for blurring `size` samples with deviation `radius`. -/
def TapTable.blur {α : Type} [Analytic α] (size : Nat) (radius : α) (colors : Nat)
    (alpha : Bool) : Except (SetupError α) TapTable :=
  (LooseTable.blur size radius colors alpha).map LooseTable.confine

end Resampler
