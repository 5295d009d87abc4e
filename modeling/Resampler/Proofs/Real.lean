import Resampler.Proofs.Numerals
import Resampler.Proofs.Rational

/-!
Exact arithmetic on the real line.

The values of a Gaussian are no rationals. What holds of a kernel before any rounding is said over
the reals, where its values may be any. The instance is there for who opens `Exact`, so that it does
not interfere with what is said of reals elsewhere.
-/

namespace Resampler.Exact

noncomputable scoped instance : Scalar ℝ where
  ofInt n := n
  lt a b := decide (a < b)
  le a b := decide (a ≤ b)
  eq a b := decide (a = b)
  isFinite _ := true
  floor := Int.floor
  ceil := Int.ceil
  round x := if 0 ≤ x then ⌊x + 1 / 2⌋ else -⌊-x + 1 / 2⌋

@[simp] theorem sum_real (xs : List ℝ) : Scalar.sum xs = xs.sum := by
  rw [Scalar.sum, List.sum_eq_foldl]
  norm_num

end Resampler.Exact
