import Resampler.Decimal.Reading
import Resampler.Json.Value

/-!
Reading JSON.

Each reader takes what it reads off the front of a text and returns the rest.
Values nest, so their reader counts down from the length of the text, which no
nesting exceeds.
-/

namespace Resampler.Json

/-- The characters that may stand between the parts of a text. -/
def isBlank (c : Char) : Bool := c = ' ' || c = '\n' || c = '\t' || c = '\r'

/-- The text without the blanks at its front. -/
def skipBlanks (cs : List Char) : List Char := cs.dropWhile isBlank

/-- The text after a given word at its front. -/
def expect? : List Char → List Char → Option (List Char)
  | [], cs => some cs
  | w :: ws, c :: cs => if w = c then expect? ws cs else none
  | _ :: _, [] => none

/-- The number of four hexadecimal digits, and the rest. -/
def hexUnit? : List Char → Option (Nat × List Char)
  | a :: b :: c :: d :: rest =>
    if Decimal.isHexDigit a && Decimal.isHexDigit b && Decimal.isHexDigit c && Decimal.isHexDigit d then
      some (Decimal.ofDigits 16 [a, b, c, d], rest)
    else
      none
  | _ => none

/-- One piece of a string. -/
inductive Piece where
  | char (c : Char)
  /-- half of a character beyond the first 65536, as its number -/
  | half (unit : Nat)
deriving DecidableEq, Repr

/-- The piece that an escape stands for, and the rest. -/
def escape? : List Char → Option (Piece × List Char)
  | '"' :: rest => some (.char '"', rest)
  | '\\' :: rest => some (.char '\\', rest)
  | '/' :: rest => some (.char '/', rest)
  | 'b' :: rest => some (.char '\x08', rest)
  | 'f' :: rest => some (.char '\x0c', rest)
  | 'n' :: rest => some (.char '\n', rest)
  | 'r' :: rest => some (.char '\r', rest)
  | 't' :: rest => some (.char '\t', rest)
  | 'u' :: rest => do
    let (unit, rest) ← hexUnit? rest
    return (if 0xD800 ≤ unit ∧ unit < 0xE000 then .half unit else .char (Char.ofNat unit), rest)
  | _ => none

/-- The pieces of a string up to its closing quote, and the rest. -/
def pieces? : Nat → List Char → Option (List Piece × List Char)
  | 0, _ => none
  | fuel + 1, cs =>
    match cs with
    | [] => none
    | '"' :: rest => some ([], rest)
    | '\\' :: rest => do
      let (p, rest) ← escape? rest
      let (ps, rest) ← pieces? fuel rest
      return (p :: ps, rest)
    | c :: rest => do
      if c.toNat < 32 then none
      let (ps, rest) ← pieces? fuel rest
      return (.char c :: ps, rest)

/-- The characters of a string, if its halves come in pairs of a high and a low one. -/
def join? : List Piece → Option (List Char)
  | [] => some []
  | .char c :: ps => (join? ps).map (c :: ·)
  | .half hi :: .half lo :: ps =>
    if hi < 0xDC00 ∧ 0xDC00 ≤ lo then
      (join? ps).map (Char.ofNat (0x10000 + (hi - 0xD800) * 0x400 + (lo - 0xDC00)) :: ·)
    else
      none
  | .half _ :: _ => none

/-- A string after its opening quote, and the rest. -/
def string? (cs : List Char) : Option (Option String × List Char) := do
  let (ps, rest) ← pieces? (cs.length + 1) cs
  return ((join? ps).map String.ofList, rest)

/-- A number, and the rest. Integers have neither point nor exponent; the digits before
a point do not start with an idle zero; a point and an exponent have digits after them. -/
def number? (cs : List Char) : Option (Value × List Char) :=
  let (negative, cs) := match cs with
    | '-' :: rest => (true, rest)
    | _ => (false, cs)
  let (l, rest) := Decimal.Literal.scan cs
  if l.whole.isEmpty || (l.whole.length != 1 && l.whole.head? == some '0') then none
  else if l.fraction == some [] then none
  else if l.exponent.any (·.2.isEmpty) then none
  else if l.fraction.isNone && l.exponent.isNone && !(negative && l.whole == ['0']) then
    let n := Decimal.ofDigits 10 l.whole
    some (.integer (if negative then -(n : Int) else n), rest)
  else
    some (.real (l.toFloat negative), rest)

mutual

def value? : Nat → List Char → Option (Value × List Char)
  | 0, _ => none
  | fuel + 1, cs =>
    match skipBlanks cs with
    | 'n' :: rest => (expect? ['u', 'l', 'l'] rest).map (.null, ·)
    | 't' :: rest => (expect? ['r', 'u', 'e'] rest).map (.bool true, ·)
    | 'f' :: rest => (expect? ['a', 'l', 's', 'e'] rest).map (.bool false, ·)
    | '"' :: rest => (string? rest).map fun (s, rest) => (.string s, rest)
    | '[' :: rest =>
      match skipBlanks rest with
      | ']' :: rest => some (.array [], rest)
      | rest => (items? fuel rest).map fun (vs, rest) => (.array vs, rest)
    | '\x7b' :: rest =>
      match skipBlanks rest with
      | '\x7d' :: rest => some (.object [], rest)
      | rest => (members? fuel rest).map fun (ms, rest) => (.object ms, rest)
    | rest => number? rest

/-- The items of an array up to its closing bracket, and the rest. -/
def items? : Nat → List Char → Option (List Value × List Char)
  | 0, _ => none
  | fuel + 1, cs => do
    let (v, rest) ← value? fuel cs
    match skipBlanks rest with
    | ',' :: rest =>
      let (vs, rest) ← items? fuel rest
      return (v :: vs, rest)
    | ']' :: rest => return ([v], rest)
    | _ => none

/-- The members of an object up to its closing brace, and the rest. -/
def members? : Nat → List Char → Option (List (Option String × Value) × List Char)
  | 0, _ => none
  | fuel + 1, cs =>
    match skipBlanks cs with
    | '"' :: rest => do
      let (k, rest) ← string? rest
      match skipBlanks rest with
      | ':' :: rest =>
        let (v, rest) ← value? fuel rest
        match skipBlanks rest with
        | ',' :: rest =>
          let (ms, rest) ← members? fuel rest
          return ((k, v) :: ms, rest)
        | '\x7d' :: rest => return ([(k, v)], rest)
        | _ => none
      | _ => none
    | _ => none

end

/-- The value that a text spells, with nothing but blanks around it. -/
def Value.ofText? (s : String) : Option Value := do
  let cs := s.toList
  let (v, rest) ← value? (2 * cs.length + 2) cs
  if (skipBlanks rest).isEmpty then some v else none

end Resampler.Json
