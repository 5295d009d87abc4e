import Resampler.Decimal.Layout

/-!
JSON values.

Numbers are integers or doubles, as their text has it. A string is kept as its
text, or as nothing if one of its escapes stands for half a character: such a
string may be skipped but not read. An object keeps its members in order, also
those whose keys repeat.
-/

namespace Resampler.Json

/-- A JSON value. -/
inductive Value where
  | null
  | bool (b : Bool)
  | integer (n : Int)
  | real (x : Float)
  | string (text : Option String)
  | array (items : List Value)
  | object (members : List (Option String × Value))
deriving Inhabited

namespace Value

def ofString (s : String) : Value := .string (some s)

def ofMembers (members : List (String × Value)) : Value :=
  .object (members.map fun (k, v) => (some k, v))

/-- The number of a double. What is not a number has no text and is null. -/
def ofFloat (x : Float) : Value := if x.isFinite then .real x else .null

end Value

/-- How doubles are written: positionally for moderate exponents and always with a decimal
place then. -/
def reals : Decimal.Layout where
  positional e := -5 ≤ e && e ≤ 15
  pointZero := true
  exponentPlus := true
  tie := .even
  nan := "null"
  infinity := "null"
  negativeInfinity := "null"

/-- The hexadecimal digit of a number below 16. -/
def hexDigit (n : Nat) : Char := "0123456789abcdef".toList.getD n '0'

/-- The written form of one character of a string. -/
def escape (c : Char) : List Char :=
  if c = '"' then ['\\', '"']
  else if c = '\\' then ['\\', '\\']
  else if c = '\n' then ['\\', 'n']
  else if c = '\r' then ['\\', 'r']
  else if c = '\t' then ['\\', 't']
  else if c = '\x08' then ['\\', 'b']
  else if c = '\x0c' then ['\\', 'f']
  else if c.toNat < 32 then
    ['\\', 'u', '0', '0', hexDigit (c.toNat / 16), hexDigit (c.toNat % 16)]
  else [c]

def quote (s : String) : String := "\"" ++ String.ofList (s.toList.flatMap escape) ++ "\""

namespace Value

mutual

/-- The written form of a value, without blanks. -/
def render : Value → String
  | null => "null"
  | bool b => if b then "true" else "false"
  | integer n => toString n
  | real x => reals.render x
  | string text => quote (text.getD "")
  | array items => "[" ++ renderItems items ++ "]"
  | object members => "\x7b" ++ renderMembers members ++ "\x7d"

/-- The written form of the items of an array. -/
def renderItems : List Value → String
  | [] => ""
  | [v] => v.render
  | v :: vs => v.render ++ "," ++ renderItems vs

/-- The written form of the members of an object. -/
def renderMembers : List (Option String × Value) → String
  | [] => ""
  | [(k, v)] => quote (k.getD "") ++ ":" ++ v.render
  | (k, v) :: rest => quote (k.getD "") ++ ":" ++ v.render ++ "," ++ renderMembers rest

end

end Value

end Resampler.Json
