import Resampler.Scalar.Binary64

/-!
The shortest decimal that reads back as a given double.

A finite positive double stands for all reals that round to it, an interval
that reaches halfway to its two neighbours and that includes its ends when the
mantissa is even. Among the decimals of that interval the ones with the fewest
digits are wanted, and of those the one nearest to the double. On the grid of a
fixed power of ten only the two neighbours of the double can be that decimal,
so trying grids from the coarsest on finds it. All of this is exact arithmetic
on natural numbers.
-/

namespace Resampler.Decimal

/-- A number `digits * 10 ^ exponent`. -/
structure Number where
  digits : Nat
  exponent : Int
deriving DecidableEq, Repr

/-- Which of two equally near decimals to take. -/
inductive Tie where
  | even
  | up
deriving DecidableEq, Repr

/-- A positive double `mantissa * 2 ^ exponent`. `narrow` says that the neighbour
below is only half as far away as the one above. -/
structure Positive where
  mantissa : Nat
  exponent : Int
  narrow : Bool
deriving DecidableEq, Repr

/-- How `a * 10 ^ i` compares with `b * 2 ^ j`. -/
def compareScaled (a : Nat) (i : Int) (b : Nat) (j : Int) : Ordering :=
  compare (a * Nat.pow 10 i.toNat * Nat.pow 2 (-j).toNat)
    (b * Nat.pow 2 j.toNat * Nat.pow 10 (-i).toNat)

namespace Positive

/-- The size of a finite double other than zero. -/
def ofFloat (x : Float) : Option Positive :=
  match Binary64.dyadic? x with
  | some d =>
    let m := d.mantissa.natAbs
    if m = 0 then none
    else some ⟨m, d.exponent, m == Binary64.hidden && (-1074 : Int) < d.exponent⟩
  | none => none

/-- Whether a decimal lies among the reals that round to the double. -/
def admits (x : Positive) (d : Number) : Bool :=
  let low := if x.narrow then 4 * x.mantissa - 1 else 4 * x.mantissa - 2
  let high := 4 * x.mantissa + 2
  let closed := x.mantissa % 2 == 0
  let fromLow := compareScaled d.digits d.exponent low (x.exponent - 2)
  let toHigh := compareScaled d.digits d.exponent high (x.exponent - 2)
  (fromLow == .gt || (closed && fromLow == .eq)) && (toHigh == .lt || (closed && toHigh == .eq))

/-- The exponent of the leading decimal digit. -/
def magnitude (x : Positive) : Int :=
  let guess := (((x.mantissa.log2 : Int) + x.exponent) * 30103) / 100000
  if compareScaled 1 (guess + 1) x.mantissa x.exponent == .gt then guess else guess + 1

/-- The multiple of `10 ^ e` just below the double, as a multiple. -/
def multipleBelow (x : Positive) (e : Int) : Nat :=
  (x.mantissa * Nat.pow 2 x.exponent.toNat * Nat.pow 10 (-e).toNat) /
    (Nat.pow 10 e.toNat * Nat.pow 2 (-x.exponent).toNat)

/-- The admitted neighbour of the double on the grid of `10 ^ e`, the nearer one if
both are admitted. -/
def onGrid? (tie : Tie) (x : Positive) (e : Int) : Option Number :=
  let n := x.multipleBelow e
  let below : Number := ⟨n, e⟩
  let above : Number := ⟨n + 1, e⟩
  match x.admits below, x.admits above with
  | false, false => none
  | true, false => some below
  | false, true => some above
  | true, true =>
    match compareScaled (2 * n + 1) e x.mantissa (x.exponent + 1), tie with
    | .gt, _ => some below
    | .lt, _ => some above
    | .eq, .up => some above
    | .eq, .even => some (if n % 2 = 0 then below else above)

def exactly (x : Positive) : Number :=
  if 0 ≤ x.exponent then ⟨x.mantissa * Nat.pow 2 x.exponent.toNat, 0⟩
  else ⟨x.mantissa * Nat.pow 5 (-x.exponent).toNat, x.exponent⟩

end Positive

/-- The same number without trailing zeros among its digits. -/
def Number.strip (d : Number) : Number :=
  if h : d.digits ≠ 0 ∧ d.digits % 10 = 0 then
    Number.strip ⟨d.digits / 10, d.exponent + 1⟩
  else
    d
termination_by d.digits
decreasing_by exact Nat.div_lt_self (Nat.pos_of_ne_zero h.1) (by decide)

/-- The shortest decimal that reads back as the double. Seventeen digits are always
enough; the exact value stands in after that. -/
def Positive.shortest (tie : Tie) (x : Positive) : Number :=
  let top := x.magnitude
  let grids := (List.range 17).map fun n : Nat => top - (n : Int)
  ((grids.findSome? (x.onGrid? tie)).getD x.exactly).strip

end Resampler.Decimal
