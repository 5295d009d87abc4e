import Resampler.Json.Reader
import Resampler.Settings
import Resampler.Settings.Record

/-!
Settings as JSON.

A record is written as an object, and may also be read from an array of its fields in
order. A filter without parameter is written as its name; a filter with one is
an object of its name and a record.
-/

namespace Resampler

namespace Json.Value

def integer? (least greatest : Int) : Value → Option Int
  | integer n => if least ≤ n ∧ n ≤ greatest then some n else none
  | _ => none

def word? (v : Value) : Option UInt32 :=
  (v.integer? 0 4294967295).map fun n => UInt32.ofNat n.toNat

def signedWord? (v : Value) : Option Int32 :=
  (v.integer? (-2147483648) 2147483647).map Int32.ofInt

def byte? (v : Value) : Option UInt8 := (v.integer? 0 255).map fun n => UInt8.ofNat n.toNat

/-- A finite double. -/
def double? : Value → Option Float
  | integer n => finite (Float.ofInt n)
  | real x => finite x
  | _ => none
where
  /-- The same double if it is finite. -/
  finite (x : Float) : Option Float := if x.isFinite then some x else none

/-- The members of a record with the given fields, from an object or from an array. -/
def record? (fields : List String) : Value → Option (List (String × Value))
  | object members => members.mapM fun (k, v) => k.map (·, v)
  | array items => if items.length ≤ fields.length then some (fields.zip items) else none
  | _ => none

end Json.Value

open Json (Value)

namespace Filter

def toJson : Filter Float → Value
  | gaussian sigma => .ofMembers [("gaussian", .ofMembers [("sigma", .ofFloat sigma)])]
  | f => .ofString f.name

/-- The filter of a name and what is given with it. -/
def ofMember? : String × Value → Option (Filter Float)
  | ("gaussian", v) => do
    let members ← v.record? ["sigma"]
    return gaussian (← Record.required "sigma" Value.double? members)
  | (name, .null) => ofName? name
  | _ => none

/-- The filter that is a JSON value. -/
def ofJson? : Value → Option (Filter Float)
  | .string (some name) => ofName? name
  | .object [(some name, v)] => ofMember? (name, v)
  | _ => none

end Filter

namespace SharpenSettings

def toJson (s : SharpenSettings Float) : Value :=
  .ofMembers [
    ("amount", .integer s.amount.toInt),
    ("radius", .ofFloat s.radius),
    ("threshold", .integer s.threshold.toNat)]

/-- The sharpening that is a JSON value. -/
def ofJson? (v : Value) : Option (SharpenSettings Float) := do
  let members ← v.record? ["amount", "radius", "threshold"]
  return {
    amount := ← Record.required "amount" Value.signedWord? members
    radius := ← Record.required "radius" Value.double? members
    threshold := ← Record.optional "threshold" Value.byte? 0 members }

end SharpenSettings

namespace Settings

def toJson (s : Settings Float) : Value :=
  .ofMembers [
    ("width", .integer s.width.toNat),
    ("height", .integer s.height.toNat),
    ("filter", s.filter.toJson),
    ("blur", .ofFloat s.blur),
    ("unsharp", s.sharpen.toJson)]

/-- The settings that are a JSON value. -/
def ofJson? (v : Value) : Option (Settings Float) := do
  let members ← v.record? ["width", "height", "filter", "blur", "unsharp"]
  return {
    width := ← Record.required "width" Value.word? members
    height := ← Record.required "height" Value.word? members
    filter := ← Record.optional "filter" Filter.ofJson? default members
    blur := ← Record.optional "blur" Value.double? 1.0 members
    sharpen := ← Record.optional "unsharp" SharpenSettings.ofJson? .off members }

def jsonText (s : Settings Float) : String := s.toJson.render

/-- The settings that a JSON text spells. -/
def ofJsonText? (text : String) : Option (Settings Float) :=
  (Value.ofText? text).bind ofJson?

end Settings

end Resampler
