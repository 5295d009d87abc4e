import Resampler.Scalar

/-!
The rationals as a scalar: geometry in exact arithmetic.
-/

namespace Resampler.Rational

/-- The nearest integer, a half going away from zero. -/
def round (x : Rat) : Int :=
  if 0 ≤ x then (x + 1 / 2).floor else -(-x + 1 / 2).floor

instance : Scalar Rat where
  ofInt n := n
  lt a b := decide (a < b)
  le a b := decide (a ≤ b)
  eq a b := decide (a = b)
  isFinite _ := true
  floor := Rat.floor
  ceil := Rat.ceil
  round := round

end Resampler.Rational
