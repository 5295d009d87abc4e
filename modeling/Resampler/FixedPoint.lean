import Resampler.Scalar
import Resampler.Word

/-!
Fixed-point weights.

A weight is a signed word with 15 fractional bits, so that `one` stands
for 1. The horizontal pass keeps 8 fractional bits of its sums and the vertical
pass drops them all; both round a half up. `quantize` turns the weights of one
window, which sum to 1, into words that sum to exactly `one`: each weight
is rounded to the nearest word, and the tap of largest magnitude takes up what
rounding left over.
-/

namespace Resampler.FixedPoint

/-- Fractional bits of a weight. -/
def weightBits : Nat := 15

/-- The weight that stands for 1. -/
def one : Int := 32768

/-- Fractional bits of a sample between the two passes. -/
def guardBits : Nat := 8

/-- Fractional bits that the horizontal pass drops. -/
def horizontalDrop : Nat := weightBits - guardBits

/-- Fractional bits that the vertical pass drops. -/
def verticalDrop : Nat := weightBits + guardBits

/-- `acc / 2 ^ shift`, a half going up. -/
def dropBits (acc : Int) (shift : Nat) : Int :=
  Word.signed64 (acc + Int.pow 2 (shift - 1)) / Int.pow 2 shift

/-- `v` moved to the nearest end of the range from 0 to `max` if it lies outside. -/
def toSample (v : Int) (max : Nat) : Nat := (min v max).toNat

variable {α : Type} [Scalar α]

/-- A window of `n` weights that all lie on the middle tap. -/
def impulse (n : Nat) : List α :=
  (List.range n).map fun j => if j = n / 2 then 1.0 else 0.0

/-- The weights divided by their sum. Weights that cannot be divided by it give way
to a single 1 in the middle. -/
def normalize (ws : List α) : List α :=
  let sum := Scalar.sum ws
  if Scalar.eq sum 0.0 || !Scalar.isFinite sum then
    impulse ws.length
  else
    let inverse := 1.0 / sum
    ws.map (· * inverse)

def quantizeTap (w : α) : Int := Word.saturate32 (Scalar.round (w * 32768.0))

/-- The position of the first weight of largest magnitude. -/
def peak (ws : List α) : Nat :=
  match ws with
  | [] => 0
  | w :: ws => go 0 w 1 ws
where
  /-- `best` and its weight are the largest of the taps before `i`. -/
  go (best : Nat) (weight : α) (i : Nat) : List α → Nat
    | [] => best
    | w :: ws =>
      if Scalar.lt (Scalar.abs weight) (Scalar.abs w) then go i w (i + 1) ws
      else go best weight (i + 1) ws

/-- The words of a window of weights. Their sum, as a word, is `one`. -/
def quantize (ws : List α) : List Int :=
  let qs := ws.map quantizeTap
  qs.modify (peak ws) fun q => Word.signed32 (q + (one - qs.foldl (· + ·) 0))

end Resampler.FixedPoint
