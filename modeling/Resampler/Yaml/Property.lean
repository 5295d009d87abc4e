import Resampler.Yaml.Text
import Resampler.Yaml.Token

/-!
The texts of anchors, aliases, tags and directives.

A tag is written as a handle and a suffix. Its characters are those of a URI, where
a percent sign and two hexadecimal digits stand for one byte. Escaped bytes come in runs
that look like a character's UTF-8 form, whether there is such a character or not. Each
reader takes a cursor at its sign and returns the token and the cursor after it.
-/

namespace Resampler.Yaml

/-- An anchor or an alias: a name, followed by a gap or by a sign that ends it. -/
def name? (token : String → Token) (c : Cursor) : Option (Token × Cursor) :=
  let start := c.skip 1
  let name := start.run isWord
  let stop := start.skip name.length
  if !name.isEmpty && (stop.atGap 0 || stop.seesAny 0 "?:,]\x7d%@\x60") then
    some (token (String.ofList name), stop)
  else
    none

/-! Tags. -/

/-- The characters that may stand in a tag; `verbatim` admits those of flow collections. -/
def isTagChar (verbatim : Bool) (c : Char) : Bool :=
  isWord c || ";/?:@&=+$.%!~*'()".toList.contains c
    || (verbatim && (c = ',' || c = '[' || c = ']'))

/-- The byte of a percent sign and two digits. -/
def escapedByte? (c : Cursor) : Option UInt8 :=
  match c.rest with
  | '%' :: a :: b :: _ =>
    if Decimal.isHexDigit a && Decimal.isHexDigit b then some (UInt8.ofNat (Decimal.ofDigits 16 [a, b])) else none
  | _ => none

/-- The number of bytes of a character, by its first byte. -/
def encodedLength? (b : UInt8) : Option Nat :=
  if b < 0x80 then some 1
  else if b &&& 0xe0 = 0xc0 then some 2
  else if b &&& 0xf0 = 0xe0 then some 3
  else if b &&& 0xf8 = 0xf0 then some 4
  else none

/-- Whether a byte may follow the first one of a character. -/
def isContinuation (b : UInt8) : Bool := b &&& 0xc0 = 0x80

/-- The character of some bytes, if they are the UTF-8 form of one. -/
def charOfBytes? (bytes : List UInt8) : Option Char := do
  (← String.fromUTF8? (ByteArray.mk bytes.toArray)).toList.head?

/-- The character, or what looks like one, whose bytes are escaped here, and the cursor
after it. -/
def escapedChar? (c : Cursor) : Option (Option Char × Cursor) := do
  let n ← encodedLength? (← escapedByte? c)
  let bytes ← (List.range n).mapM fun k => escapedByte? (c.skip (3 * k))
  if (bytes.drop 1).all isContinuation then some (charOfBytes? bytes, c.skip (3 * n)) else none

/-- The run of a tag's characters that stands here. -/
def tagChars? (verbatim : Bool) : Nat → Cursor → Option (List (Option Char) × Cursor)
  | 0, _ => none
  | fuel + 1, c =>
    match c.rest with
    | [] => some ([], c)
    | x :: _ =>
      if !isTagChar verbatim x then some ([], c)
      else do
        let (y, next) ← if x = '%' then escapedChar? c else some (some x, c.skip 1)
        let (ys, last) ← tagChars? verbatim fuel next
        return (y :: ys, last)

/-- The run of a tag's characters that stands here and has at least one. -/
def tagText? (verbatim : Bool) (c : Cursor) : Option (Tag × Cursor) := do
  let (cs, last) ← tagChars? verbatim (c.rest.length + 1) c
  if cs.isEmpty then none else some (.ofChars cs, last)

/-- An exclamation mark, a word, and the exclamation mark after it if there is one. -/
def handle? (c : Cursor) : Option (String × Bool × Cursor) :=
  if !c.sees 0 '!' then none
  else
    let word := (c.skip 1).run isWord
    let stop := c.skip (1 + word.length)
    if stop.sees 0 '!' then some (String.ofList ('!' :: word ++ ['!']), true, stop.skip 1)
    else some (String.ofList ('!' :: word), false, stop)

/-- A tag between angle brackets, a tag with a handle, or a tag after a lone mark. -/
def tagBody? (c : Cursor) : Option (Token × Cursor) :=
  if c.sees 1 '<' then do
    let (suffix, stop) ← tagText? true (c.skip 2)
    if stop.sees 0 '>' then some (.tag "" suffix, stop.skip 1) else none
  else do
    let (handle, closed, stop) ← handle? c
    if closed then
      let (suffix, stop) ← tagText? false stop
      return (.tag handle suffix, stop)
    else
      let (more, stop) ← tagChars? false (stop.rest.length + 1) stop
      let suffix := Tag.ofChars ((handle.toList.drop 1).map some ++ more)
      return (if suffix = .text "" then .tag "" (.text "!") else .tag "!" suffix, stop)

/-- A tag, which ends before a gap, or before a comma inside a flow collection. -/
def tag? (flow : Bool) (c : Cursor) : Option (Token × Cursor) := do
  let (token, stop) ← tagBody? c
  if stop.atGap 0 || (flow && stop.sees 0 ',') then some (token, stop) else none

/-! Directives. -/

/-- A number of at most nine digits. -/
def versionPart? (c : Cursor) : Option (Nat × Cursor) :=
  let ds := c.run Decimal.isDigit
  if ds.isEmpty || 9 < ds.length then none
  else some (Decimal.ofDigits 10 ds, c.skip ds.length)

def version? (c : Cursor) : Option (Token × Cursor) := do
  let (major, c) ← versionPart? c
  if !c.sees 0 '.' then none
  let (minor, c) ← versionPart? (c.skip 1)
  return (.version major minor, c)

/-- The handle of a tag directive and what it stands for. -/
def tagHandle? (c : Cursor) : Option (Token × Cursor) := do
  let (handle, closed, c) ← handle? c
  if !(closed || handle == "!") || !c.atBlank 0 then none
  let (expansion, c) ← tagText? true (c.skipRun isBlank)
  if c.atGap 0 then some (.tagHandle handle expansion, c) else none

/-- A directive, which takes up its line. -/
def directive? (c : Cursor) : Option (Token × Cursor) := do
  let start := c.skip 1
  let name := start.run isWord
  let stop := start.skip name.length
  if !stop.atGap 0 then none
  let body := stop.skipRun isBlank
  let (token, c) ←
    if name = "YAML".toList then version? body
    else if name = "TAG".toList then tagHandle? body
    else none
  let c := c.skipRun isBlank
  let c := if c.sees 0 '#' then c.skipRun (fun x => !isBreak x) else c
  if c.atBreakOrEnd 0 then some (token, c.skipBreak) else none

end Resampler.Yaml
