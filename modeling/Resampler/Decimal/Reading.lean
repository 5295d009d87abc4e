/-!
Reading decimal numbers.

A decimal literal is a run of digits with at most one point and at most one
exponent. Its parts are split off by `Literal.scan`, which leaves it to each text
format to say which parts may be missing; its value is the double nearest to it.
-/

namespace Resampler.Decimal

def isDigit (c : Char) : Bool := '0' ≤ c && c ≤ '9'

/-- A digit of any base up to 16. -/
def isHexDigit (c : Char) : Bool :=
  isDigit c || ('a' ≤ c && c ≤ 'f') || ('A' ≤ c && c ≤ 'F')

/-- The number that a run of digits spells in a base. Letters count from ten on. -/
def ofDigits (base : Nat) (ds : List Char) : Nat := ds.foldl (fun n c => n * base + value c) 0
where
  value (c : Char) : Nat :=
    if isDigit c then c.toNat - '0'.toNat
    else if 'a' ≤ c ∧ c ≤ 'z' then c.toNat - 'a'.toNat + 10
    else c.toNat - 'A'.toNat + 10

/-- The double nearest to `m * 10 ^ e`. Far outside the range of doubles this is plain
from the number of digits. -/
def nearest (m : Nat) (e : Int) : Float :=
  let length : Int := (toString m).length
  if m = 0 then 0.0
  else if 310 < length + e then 1.0 / 0.0
  else if length + e < -330 then 0.0
  else OfScientific.ofScientific m (e < 0) e.natAbs

/-- The parts of a decimal literal. -/
structure Literal where
  whole : List Char
  /-- the digits after the point, if there is a point -/
  fraction : Option (List Char)
  /-- the sign and the digits of the exponent, if there is one -/
  exponent : Option (Bool × List Char)
deriving DecidableEq, Repr

namespace Literal

/-- An exponent mark with its sign and digits, and what follows. -/
def scanExponent (cs : List Char) : Option (Bool × List Char) × List Char :=
  match cs with
  | c :: rest =>
    if c = 'e' ∨ c = 'E' then
      let (negative, digits) := match rest with
        | '-' :: ds => (true, ds)
        | '+' :: ds => (false, ds)
        | ds => (false, ds)
      (some (negative, digits.takeWhile isDigit), digits.dropWhile isDigit)
    else
      (none, cs)
  | [] => (none, [])

/-- The longest literal at the start of a text, and what follows. -/
def scan (cs : List Char) : Literal × List Char :=
  let whole := cs.takeWhile isDigit
  let rest := cs.dropWhile isDigit
  let (fraction, rest) := match rest with
    | '.' :: ds => (some (ds.takeWhile isDigit), ds.dropWhile isDigit)
    | _ => (none, rest)
  let (exponent, rest) := scanExponent rest
  (⟨whole, fraction, exponent⟩, rest)

/-- The digits before and after the point. -/
def digits (l : Literal) : List Char := l.whole ++ l.fraction.getD []

/-- The exponent as a number; none counts as zero. -/
def exponentValue (l : Literal) : Int :=
  match l.exponent with
  | none => 0
  | some (negative, ds) => if negative then -(ofDigits 10 ds : Int) else ofDigits 10 ds

/-- The double nearest to the literal with a sign put before it. -/
def toFloat (negative : Bool) (l : Literal) : Float :=
  let x := nearest (ofDigits 10 l.digits) (l.exponentValue - (l.fraction.getD []).length)
  if negative then -x else x

end Literal

end Resampler.Decimal
