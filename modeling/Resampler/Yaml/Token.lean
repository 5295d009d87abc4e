import Resampler.Yaml.Tag

/-!
The tokens of a YAML text.

Indentation is gone from a list of tokens: a collection that indentation opens has
a start and an end of its own, just like one between brackets. A key is marked
before its first token, also where the text shows only by a later colon that it
was one.
-/

namespace Resampler.Yaml

/-- How a scalar is written. -/
inductive Style where
  | plain
  | singleQuoted
  | doubleQuoted
  | literal
  | folded
deriving DecidableEq, Repr, Inhabited

/-- A piece of a YAML text. -/
inductive Token where
  /-- the version of the language that the text is written in -/
  | version (major minor : Nat)
  /-- what a tag handle stands for -/
  | tagHandle (handle : String) (expansion : Tag)
  | documentStart
  | documentEnd
  | streamEnd
  | blockSequenceStart
  | blockMappingStart
  | blockEnd
  | flowSequenceStart
  | flowSequenceEnd
  | flowMappingStart
  | flowMappingEnd
  | blockEntry
  | flowEntry
  | key
  | value
  | reference (name : String)
  | anchor (name : String)
  | tag (handle : String) (suffix : Tag)
  | scalar (text : String) (style : Style)
deriving DecidableEq, Repr, Inhabited

end Resampler.Yaml
