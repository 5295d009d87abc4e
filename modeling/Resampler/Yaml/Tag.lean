/-!
YAML tags.

A tag says what kind of thing a node is. It is written in characters and in escaped
bytes, and escaped bytes need not spell a character: such a tag is still a tag, but
nothing can be read off it.
-/

namespace Resampler.Yaml

/-- A tag. -/
inductive Tag where
  | text (s : String)
  /-- the bytes of the tag spell no text -/
  | unreadable
deriving DecidableEq, Repr, Inhabited

namespace Tag

/-- The tag that characters spell, `none` standing for bytes that are no character. A tag
ends before a NUL. -/
def ofChars (cs : List (Option Char)) : Tag :=
  match (cs.takeWhile (· ≠ some '\x00')).mapM id with
  | some cs => text (String.ofList cs)
  | none => unreadable

def append : Tag → Tag → Tag
  | text s, text t => text (s ++ t)
  | _, _ => unreadable

/-- The name in a tag that starts with an exclamation mark. -/
def name? : Tag → Option String
  | text s =>
    match s.toList with
    | '!' :: cs => some (String.ofList cs)
    | _ => none
  | unreadable => none

/-- The written form. What cannot be read is not written. -/
def render : Tag → String
  | text s => s
  | unreadable => ""

end Tag

end Resampler.Yaml
