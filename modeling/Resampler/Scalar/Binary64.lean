import Resampler.Scalar
import Resampler.Word

/-!
Binary floating point as a scalar.

A finite double is exactly `mantissa * 2 ^ exponent`, and rounding it to an
integer is done on these two integers. A value that does not fit into a signed
64-bit word, an infinity included, becomes the nearest one that does, and NaN
becomes zero.
-/

namespace Resampler.Binary64

/-- A number `mantissa * 2 ^ exponent`. -/
structure Dyadic where
  mantissa : Int
  exponent : Int
deriving DecidableEq, Repr

/-- The leading bit of a mantissa, which a double does not store. -/
def hidden : Nat := 4503599627370496

/-- The exact value of a double, or `none` for an infinity or NaN. -/
def dyadic? (x : Float) : Option Dyadic :=
  let bits : Nat := x.toBits.toNat
  let biased : Nat := bits / hidden % 2048
  let fraction : Nat := bits % hidden
  let sign : Int := if bits < 9223372036854775808 then 1 else -1
  if biased = 2047 then none
  else if biased = 0 then some ⟨sign * fraction, -1074⟩
  else some ⟨sign * (hidden + fraction : Nat), (biased : Int) - 1075⟩

namespace Dyadic

/-- The largest integer that is not above. -/
def floor (d : Dyadic) : Int :=
  if 0 ≤ d.exponent then d.mantissa * Int.pow 2 d.exponent.toNat
  else d.mantissa / Int.pow 2 (-d.exponent).toNat

def neg (d : Dyadic) : Dyadic := ⟨-d.mantissa, d.exponent⟩

/-- The least integer that is not below. -/
def ceil (d : Dyadic) : Int := -d.neg.floor

/-- The nearest integer, a half going away from zero. -/
def round (d : Dyadic) : Int :=
  if 0 ≤ d.mantissa then half d else -half d.neg
where
  /-- The nearest integer, a half going up. -/
  half (d : Dyadic) : Int :=
    if 0 ≤ d.exponent then d.mantissa * Int.pow 2 d.exponent.toNat
    else
      (2 * d.mantissa + Int.pow 2 (-d.exponent).toNat) / Int.pow 2 ((-d.exponent).toNat + 1)

end Dyadic

/-- A double as an integer that fits into a signed 64-bit word. -/
def toWord (f : Dyadic → Int) (x : Float) : Int :=
  match dyadic? x with
  | some d => Word.saturate64 (f d)
  | none => if x.isNaN then 0 else Word.saturate64 (if x < 0.0 then -9223372036854775808 else 9223372036854775808)

instance : Scalar Float where
  ofInt := Float.ofInt
  lt a b := decide (a < b)
  le a b := decide (a ≤ b)
  eq a b := a == b
  isFinite := Float.isFinite
  floor := toWord Dyadic.floor
  ceil := toWord Dyadic.ceil
  round := toWord Dyadic.round

instance : Analytic Float where
  sqrt := Float.sqrt
  exp := Float.exp
  sin := Float.sin

end Resampler.Binary64
