/-!
The numbers that geometry is computed with.

Window positions, kernel values and fitted sizes are computed over a `Scalar`
type. Programs use binary floating point; reasoning may use any other instance,
in particular the rationals, where the same definitions mean exact arithmetic.
Comparisons are Boolean because a scalar need not be ordered: with a NaN at
hand, `lt` and `le` may both be false.

`Analytic` adds the three functions that no exact instance has.
-/

namespace Resampler

/-- Numbers with the operations that geometry needs. -/
class Scalar (α : Type) extends Add α, Sub α, Mul α, Div α, Neg α, OfScientific α where
  /-- the number nearest to an integer -/
  ofInt : Int → α
  lt : α → α → Bool
  le : α → α → Bool
  /-- equality of numbers, which need not be identity -/
  eq : α → α → Bool
  /-- whether this is a number at all, and not an infinity -/
  isFinite : α → Bool
  /-- the largest integer that is not above -/
  floor : α → Int
  /-- the least integer that is not below -/
  ceil : α → Int
  /-- the nearest integer, a half going away from zero -/
  round : α → Int

/-- Numbers with the functions that kernels of infinite smoothness need. -/
class Analytic (α : Type) extends Scalar α where
  sqrt : α → α
  exp : α → α
  sin : α → α

namespace Scalar

variable {α : Type} [Scalar α]

def abs (x : α) : α := if lt x 0.0 then -x else x

/-- The lesser of two numbers, the second one if they cannot be compared. -/
def least (x y : α) : α := if le x y then x else y

/-- The greater of two numbers, the second one if they cannot be compared. -/
def greatest (x y : α) : α := if le y x then x else y

/-- The sum of a list, added up from the left. -/
def sum (xs : List α) : α := xs.foldl (· + ·) 0.0

def ofNat (n : Nat) : α := ofInt n

end Scalar

end Resampler
