import Resampler.Settings
import Resampler.Settings.Record
import Resampler.Yaml.Document

/-!
Settings as YAML.

A record is a mapping. A filter is its name, or a tag of its name on its
record if it has one. Where a value stands, an alias may stand instead of it.
-/

namespace Resampler

namespace Yaml.Node

def scalar? (root n : Node) : Option Scalar := do
  match ← root.resolve n with
  | scalar _ s => some s
  | _ => none

def word? (root n : Node) : Option UInt32 := do
  let k ← (← root.scalar? n).unsigned
  if k ≤ 4294967295 then some (UInt32.ofNat k) else none

def signedWord? (root n : Node) : Option Int32 := do
  let k ← (← root.scalar? n).signed
  if -2147483648 ≤ k ∧ k ≤ 2147483647 then some (Int32.ofInt k) else none

def byte? (root n : Node) : Option UInt8 := do
  let k ← (← root.scalar? n).unsigned
  if k ≤ 255 then some (UInt8.ofNat k) else none

def double? (root n : Node) : Option Float := do (← root.scalar? n).real

/-- The members of a mapping. Every key must be a scalar. -/
def members? (root : Node) (entries : List (Node × Node)) : Option (List (String × Node)) :=
  entries.mapM fun (k, v) => do return ((← root.scalar? k).text, v)

/-- The members of a record, from a mapping. -/
def record? (root n : Node) : Option (List (String × Node)) := do
  match ← root.resolve n with
  | mapping _ entries => root.members? entries
  | _ => none

def ofMembers (tag : Option String) (members : List (String × Node)) : Node :=
  .mapping ⟨tag.map .text, none⟩ (members.map fun (k, v) => (.scalar .absent (.ofWord k), v))

def ofWord (s : String) : Node := .scalar .absent (.ofWord s)

def ofInt (n : Int) : Node := .scalar .absent (.ofInt n)

def ofFloat (x : Float) : Node := .scalar .absent (.ofFloat x)

end Yaml.Node

open Yaml (Node)

/-- The name in the tag of a node, if it has one. -/
def Yaml.Properties.name? (props : Yaml.Properties) : Option String := props.tag.bind (·.name?)

namespace Filter

def toYaml : Filter Float → Node
  | gaussian sigma => .ofMembers (some "!gaussian") [("sigma", .ofFloat sigma)]
  | f => .ofWord f.name

/-- The Gaussian whose record has the given entries. -/
def gaussianOf? (root : Node) (entries : List (Node × Node)) : Option (Filter Float) := do
  return gaussian (← Record.required "sigma" root.double? (← root.members? entries))

/-- The filter that is a node of a document. -/
def ofYaml? (root n : Node) : Option (Filter Float) := do
  match ← root.resolve n with
  | .scalar props s =>
    match props.name? with
    | none => ofName? s.text
    | some name => if s.isNull then ofName? name else none
  | .mapping props entries =>
    if props.name? = some "gaussian" then gaussianOf? root entries else none
  | _ => none

end Filter

namespace SharpenSettings

def toYaml (s : SharpenSettings Float) : Node :=
  .ofMembers none [
    ("amount", .ofInt s.amount.toInt),
    ("radius", .ofFloat s.radius),
    ("threshold", .ofInt s.threshold.toNat)]

/-- The sharpening that is a node of a document. -/
def ofYaml? (root n : Node) : Option (SharpenSettings Float) := do
  let members ← root.record? n
  return {
    amount := ← Record.required "amount" root.signedWord? members
    radius := ← Record.required "radius" root.double? members
    threshold := ← Record.optional "threshold" root.byte? 0 members }

end SharpenSettings

namespace Settings

def toYaml (s : Settings Float) : Node :=
  .ofMembers none [
    ("width", .ofInt s.width.toNat),
    ("height", .ofInt s.height.toNat),
    ("filter", s.filter.toYaml),
    ("blur", .ofFloat s.blur),
    ("unsharp", s.sharpen.toYaml)]

def ofYaml? (root : Node) : Option (Settings Float) := do
  let members ← root.record? root
  return {
    width := ← Record.required "width" root.word? members
    height := ← Record.required "height" root.word? members
    filter := ← Record.optional "filter" (Filter.ofYaml? root) default members
    blur := ← Record.optional "blur" root.double? 1.0 members
    sharpen := ← Record.optional "unsharp" (SharpenSettings.ofYaml? root) .off members }

def yamlText (s : Settings Float) : String := s.toYaml.render

/-- The settings that a YAML text spells. -/
def ofYamlText? (text : String) : Option (Settings Float) := (Node.ofText? text).bind ofYaml?

end Settings

end Resampler
