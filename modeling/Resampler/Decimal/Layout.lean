import Resampler.Decimal.Shortest

/-!
Written forms of doubles.

The digits of a double are the shortest that read back. A `Layout` holds what
is left to decide: which numbers are written positionally, whether an integer
keeps a decimal place, how an exponent is written, which of two equally near
decimals is taken, and the names of the values that have no digits.
-/

namespace Resampler.Decimal

/-- The decisions that fix the written form of a double. -/
structure Layout where
  /-- the exponents of the leading digit with which a number is written positionally -/
  positional : Int → Bool
  /-- whether an integer written positionally gets a decimal place -/
  pointZero : Bool
  /-- whether a positive exponent gets a sign -/
  exponentPlus : Bool
  tie : Tie
  nan : String
  infinity : String
  negativeInfinity : String

def zeros (n : Nat) : String := String.ofList (List.replicate n '0')

/-- Digits with the leading one at exponent `e`, written with a decimal point. -/
def positional (pointZero : Bool) (ds : List Char) (e : Int) : String :=
  if e < 0 then
    "0." ++ zeros ((-e).toNat - 1) ++ String.ofList ds
  else if (ds.length : Int) ≤ e + 1 then
    String.ofList ds ++ zeros (e.toNat + 1 - ds.length) ++ (if pointZero then ".0" else "")
  else
    String.ofList (ds.take (e.toNat + 1)) ++ "." ++ String.ofList (ds.drop (e.toNat + 1))

/-- Digits with the leading one at exponent `e`, written with an exponent. -/
def scientific (plus : Bool) (ds : List Char) (e : Int) : String :=
  let head := String.ofList (ds.take 1)
  let tail := if ds.length ≤ 1 then "" else "." ++ String.ofList (ds.drop 1)
  let sign := if e < 0 then "-" else if plus then "+" else ""
  head ++ tail ++ "e" ++ sign ++ toString e.natAbs

namespace Layout

/-- The written form of a positive decimal. -/
def renderDecimal (l : Layout) (d : Number) : String :=
  let ds := (toString d.digits).toList
  let e := d.exponent + (ds.length : Int) - 1
  if l.positional e then Decimal.positional l.pointZero ds e
  else scientific l.exponentPlus ds e

def render (l : Layout) (x : Float) : String :=
  if x.isNaN then l.nan
  else
    let negative := x.toBits ≥ 0x8000000000000000
    if x.isInf then
      if negative then l.negativeInfinity else l.infinity
    else
      let size := match Positive.ofFloat x with
        | none => if l.pointZero then "0.0" else "0"
        | some p => l.renderDecimal (p.shortest l.tie)
      if negative then "-" ++ size else size

end Layout

/-- Numbers in messages: never an exponent, and no decimal place without need. -/
def inMessages : Layout where
  positional _ := true
  pointZero := false
  exponentPlus := false
  tie := .up
  nan := "NaN"
  infinity := "inf"
  negativeInfinity := "-inf"

end Resampler.Decimal
