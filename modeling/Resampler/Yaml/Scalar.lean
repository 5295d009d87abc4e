import Resampler.Decimal.Layout
import Resampler.Decimal.Reading
import Resampler.Yaml.Token

/-!
What YAML scalars can be read as.

A scalar has a text, and depending on how it is written the text may also be
read as a number or as null. The readings are kept next to the text, so that what is
done with a scalar does not depend on how numbers are spelled. Only a plain scalar
has all of them; a literal block has the one that its tag names, and a quoted
scalar is only ever its text.
-/

namespace Resampler.Yaml

/-- A scalar with its readings. -/
structure Scalar where
  text : String
  /-- the integer, if there is one and no minus sign -/
  unsigned : Option Nat
  signed : Option Int
  real : Option Float
  isNull : Bool
deriving Repr, Inhabited

namespace Scalar

/-! The readings of a text. -/

/-- The number that digits of a base spell. -/
def digits? (base : Nat) (ds : List Char) : Option Nat :=
  let isDigitOf (c : Char) : Bool := Decimal.isHexDigit c && Decimal.ofDigits.value c < base
  if !ds.isEmpty && ds.all isDigitOf then some (Decimal.ofDigits base ds) else none

/-- An integer without a sign. A decimal one has no zero before its other digits. -/
def magnitude? : List Char → Option Nat
  | '0' :: 'x' :: ds => digits? 16 ds
  | '0' :: 'o' :: ds => digits? 8 ds
  | '0' :: 'b' :: ds => digits? 2 ds
  | '0' :: _ :: _ => none
  | ds => digits? 10 ds

/-- The text without a plus sign at its front. -/
def dropPlus : List Char → List Char
  | '+' :: cs => cs
  | cs => cs

def unsigned? (cs : List Char) : Option Nat := magnitude? (dropPlus cs)

def signed? : List Char → Option Int
  | '-' :: cs => (magnitude? cs).map fun n : Nat => -(n : Int)
  | cs => (unsigned? cs).map fun n : Nat => (n : Int)

/-- A finite number in decimal notation, where the digits before or after the point may
be missing. -/
def decimal? (negative : Bool) (cs : List Char) : Option Float :=
  let (literal, rest) := Decimal.Literal.scan cs
  let x := literal.toFloat negative
  if rest.isEmpty && !literal.digits.isEmpty && (literal.exponent.all fun e => !e.2.isEmpty)
      && x.isFinite then
    some x
  else
    none

/-- A number, an infinity, or what is not a number. -/
def real? (cs : List Char) : Option Float :=
  let s := String.ofList cs
  if [".nan", ".NaN", ".NAN"].contains s then some (0.0 / 0.0)
  else if ["-.inf", "-.Inf", "-.INF"].contains s then some (-1.0 / 0.0)
  else if [".inf", ".Inf", ".INF"].contains (String.ofList (dropPlus cs)) then some (1.0 / 0.0)
  else
    match cs with
    | '-' :: cs => decimal? true cs
    | cs => decimal? false (dropPlus cs)

def isNullText (s : String) : Bool := ["", "~", "null", "Null", "NULL"].contains s

/-- The scalar of a text that is written in some style and tagged. -/
def read (text : String) (style : Style) (tag : Option Tag) : Scalar :=
  let reads (name : String) : Bool :=
    style = .plain || (style = .literal && tag == some (.text ("tag:yaml.org,2002:" ++ name)))
  let cs := text.toList
  { text
    unsigned := if reads "int" then unsigned? cs else none
    signed := if reads "int" then signed? cs else none
    real := if reads "float" then real? cs else none
    isNull := reads "null" && isNullText text }

/-! The scalar of a value. -/

/-- How doubles are written: positionally for moderate exponents, with a decimal place
then. -/
def reals : Decimal.Layout where
  positional e := -5 ≤ e && e ≤ 15
  pointZero := true
  exponentPlus := false
  tie := .even
  nan := ".nan"
  infinity := ".inf"
  negativeInfinity := "-.inf"

/-- The scalar that is a word and nothing else. -/
def ofWord (s : String) : Scalar := ⟨s, none, none, none, false⟩

def ofInt (n : Int) : Scalar :=
  ⟨toString n, if 0 ≤ n then some n.toNat else none, some n, some (Float.ofInt n), false⟩

def ofFloat (x : Float) : Scalar := ⟨reals.render x, none, none, some x, false⟩

def empty : Scalar := ⟨"", none, none, none, true⟩

end Scalar

end Resampler.Yaml
