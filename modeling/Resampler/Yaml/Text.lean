import Resampler.Decimal.Reading
import Resampler.Yaml.Cursor

/-!
The text of YAML scalars.

Scalars are written plain, between single or double quotes, or as a block of
lines. Plain and quoted ones may run over several lines: a single line break then
counts as a space, further ones as themselves, and blanks around breaks as
nothing. Each reader takes a cursor at the scalar and returns the text and the
cursor after it.
-/

namespace Resampler.Yaml

/-- Blanks and line breaks between two pieces of a plain or quoted scalar. -/
structure Gap where
  /-- the blanks, if there is no line break -/
  blanks : List Char
  /-- what the first line break contributes, if there is one -/
  first : List Char
  /-- what the other line breaks contribute -/
  others : List Char
  broken : Bool
deriving DecidableEq, Repr, Inhabited

namespace Gap

def none : Gap := ⟨[], [], [], false⟩

/-- What a gap contributes to the scalar. -/
def fold (g : Gap) : List Char :=
  if g.broken then
    if g.first.head? = some '\n' then (if g.others.isEmpty then [' '] else g.others)
    else g.first ++ g.others
  else
    g.blanks

/-- Goes over the blanks and breaks that stand here. In a plain scalar of a block,
`indent` is the least column of its lines, and a tab before it is an error. -/
def scan? (indent : Option Nat) : Nat → Gap → Cursor → Option (Gap × Cursor)
  | 0, _, _ => Option.none
  | fuel + 1, g, c =>
    match c.rest with
    | x :: _ =>
      if isBlank x then
        if g.broken then
          if indent.any (c.column < ·) && x == '\t' then Option.none
          else scan? indent fuel g (c.skip 1)
        else
          scan? indent fuel { g with blanks := g.blanks ++ [x] } (c.skip 1)
      else if isBreak x then
        let g := if g.broken then { g with others := g.others ++ c.breakText }
          else { g with blanks := [], first := c.breakText, broken := true }
        scan? indent fuel g c.skipBreak
      else
        some (g, c)
    | [] => some (g, c)

end Gap

/-! Plain scalars. -/

/-- The number of characters of a plain scalar from here to the next gap or to the
character that ends it. -/
def plainRun? (flow : Bool) : Nat → Cursor → Option Nat
  | 0, _ => none
  | fuel + 1, c =>
    if c.atGap 0 then some 0
    else if flow && c.sees 0 ':' && c.seesAny 1 ",?[]\x7b\x7d" then none
    else if c.sees 0 ':' && c.atGap 1 then some 0
    else if flow && c.seesAny 0 ",[]\x7b\x7d" then some 0
    else (plainRun? flow fuel (c.skip 1)).map (· + 1)

/-- The rest of a plain scalar, the gap before it given. The Boolean says whether a line
break was crossed after the last piece. -/
def plainRest? (flow : Bool) (indent : Nat) :
    Nat → Gap → Cursor → Option (List Char × Bool × Cursor)
  | 0, _, _ => none
  | fuel + 1, g, c =>
    if c.atMarker '-' || c.atMarker '.' || c.sees 0 '#' then some ([], g.broken, c)
    else do
      let n ← plainRun? flow (c.rest.length + 1) c
      let after := c.skip n
      let piece := if n = 0 then [] else g.fold ++ c.rest.take n
      let g' := if n = 0 then g else Gap.none
      if !(after.atBlank 0 || after.atBreak 0) then
        return (piece, g'.broken, after)
      let (g'', next) ← Gap.scan? (some indent) (after.rest.length + 1) g' after
      if !flow && next.column < indent then
        return (piece, g''.broken, next)
      let (text, broken, last) ← plainRest? flow indent fuel g'' next
      return (piece ++ text, broken, last)

/-- A plain scalar. In a block its lines stand at column `indent` or further. -/
def plain? (flow : Bool) (indent : Nat) (c : Cursor) : Option (List Char × Bool × Cursor) :=
  plainRest? flow indent (c.rest.length + 1) Gap.none c

/-! Quoted scalars. -/

def escapeLetter? : Char → Option Char
  | '0' => some '\x00'
  | 'a' => some '\x07'
  | 'b' => some '\x08'
  | 't' | '\t' => some '\t'
  | 'n' => some '\n'
  | 'v' => some '\x0b'
  | 'f' => some '\x0c'
  | 'r' => some '\r'
  | 'e' => some '\x1b'
  | ' ' => some ' '
  | '"' => some '"'
  | '/' => some '/'
  | '\\' => some '\\'
  | 'N' => some '\u0085'
  | '_' => some '\u00a0'
  | 'L' => some '\u2028'
  | 'P' => some '\u2029'
  | _ => none

/-- The number of hexadecimal digits of a numeric escape. -/
def escapeLength? : Char → Option Nat
  | 'x' => some 2
  | 'u' => some 4
  | 'U' => some 8
  | _ => none

/-- The character of the escape after a backslash, and the cursor after it. -/
def escape? (c : Cursor) : Option (Char × Cursor) := do
  let letter ← c.peek 1
  match escapeLength? letter with
  | none => return (← escapeLetter? letter, c.skip 2)
  | some n =>
    let ds := (c.rest.drop 2).take n
    if ds.length < n || !ds.all Decimal.isHexDigit then none
    let code := Decimal.ofDigits 16 ds
    if (0xD800 ≤ code ∧ code ≤ 0xDFFF) ∨ 0x10FFFF < code then none
    return (Char.ofNat code, c.skip (2 + n))

/-- What ends a run of characters inside quotes. -/
inductive RunEnd where
  /-- a gap, or the closing quote -/
  | here
  /-- a break behind a backslash, which is to be left out -/
  | hiddenBreak
deriving DecidableEq, Repr

/-- The characters inside quotes from here to the next gap or to the closing quote. -/
def quotedRun? (single : Bool) : Nat → Cursor → Option (List Char × RunEnd × Cursor)
  | 0, _ => none
  | fuel + 1, c =>
    if c.atGap 0 then some ([], .here, c)
    else if single && c.sees 0 '\'' && c.sees 1 '\'' then do
      let (text, how, last) ← quotedRun? single fuel (c.skip 2)
      return ('\'' :: text, how, last)
    else if c.sees 0 (if single then '\'' else '"') then some ([], .here, c)
    else if !single && c.sees 0 '\\' then
      if c.atBreak 1 then some ([], .hiddenBreak, (c.skip 1).skipBreak)
      else do
        let (x, next) ← escape? c
        let (text, how, last) ← quotedRun? single fuel next
        return (x :: text, how, last)
    else do
      let (text, how, last) ← quotedRun? single fuel (c.skip 1)
      return (c.rest.take 1 ++ text, how, last)

/-- The rest of a quoted scalar up to its closing quote. -/
def quotedRest? (single : Bool) : Nat → Cursor → Option (List Char × Cursor)
  | 0, _ => none
  | fuel + 1, c =>
    if c.atMarker '-' || c.atMarker '.' || c.atEnd then none
    else do
      let (piece, how, after) ← quotedRun? single (c.rest.length + 1) c
      if how = .here && after.sees 0 (if single then '\'' else '"') then
        return (piece, after.skip 1)
      let start : Gap := { Gap.none with broken := how = .hiddenBreak }
      let (g, next) ← Gap.scan? none (after.rest.length + 1) start after
      let (text, last) ← quotedRest? single fuel next
      return (piece ++ g.fold ++ text, last)

def quoted? (single : Bool) (c : Cursor) : Option (List Char × Cursor) :=
  quotedRest? single (c.rest.length + 1) (c.skip 1)

/-! Blocks of lines. -/

/-- What is done with the line breaks at the end of a block. -/
inductive Chomp where
  | strip
  | clip
  | keep
deriving DecidableEq, Repr

/-- The header of a block: what is done with its last breaks, and the indentation that it
states. -/
def blockHeader? (c : Cursor) : Option (Chomp × Option Nat × Cursor) :=
  let chomp? (c : Cursor) : Option Chomp :=
    if c.sees 0 '+' then some .keep else if c.sees 0 '-' then some .strip else none
  let digit? (c : Cursor) : Option Nat :=
    (c.peek 0).bind fun x => if Decimal.isDigit x then some (Decimal.ofDigits 10 [x]) else none
  match chomp? c with
  | some how =>
    match digit? (c.skip 1) with
    | some 0 => none
    | some n => some (how, some n, c.skip 2)
    | none => some (how, none, c.skip 1)
  | none =>
    match digit? c with
    | some 0 => none
    | some n =>
      match chomp? (c.skip 1) with
      | some how => some (how, some n, c.skip 2)
      | none => some (.clip, some n, c.skip 1)
    | none => some (.clip, none, c)

/-- Goes over the indentation and the empty lines that stand here, the indentation being
at most `indent` if that is known. Gives the breaks and the largest column seen. -/
def blockBreaks? (indent : Option Nat) :
    Nat → Nat → Cursor → Option (List Char × Nat × Cursor)
  | 0, _, _ => none
  | fuel + 1, widest, c =>
    let spaces := (c.run (· = ' ')).length
    let n := match indent with
      | some i => min spaces (i - c.column)
      | none => spaces
    let c := c.skip n
    let widest := max widest c.column
    let short : Bool := match indent with
      | some i => c.column < i
      | none => true
    if short && c.sees 0 '\t' then none
    else if c.atBreak 0 then do
      let (text, widest, last) ← blockBreaks? indent fuel widest c.skipBreak
      return (c.breakText ++ text, widest, last)
    else some ([], widest, c)

/-- The lines of a block from one that is not empty on. `lead` is the break before it,
`breaks` are those of the empty lines in between, and `blank` says whether the line
before started with a blank. The result also has what was left at the end. -/
def blockLines? (literal : Bool) (indent : Nat) :
    Nat → (lead breaks : List Char) → Bool → Cursor →
      Option (List Char × List Char × List Char × Cursor)
  | 0, _, _, _, _ => none
  | fuel + 1, lead, breaks, blank, c =>
    if c.column ≠ indent || c.atEnd then some ([], lead, breaks, c)
    else
      let startsBlank := c.atBlank 0
      let glue :=
        if !literal && lead.head? == some '\n' && !blank && !startsBlank then
          (if breaks.isEmpty then [' '] else []) ++ breaks
        else lead ++ breaks
      let line := c.run fun x => !isBreak x
      let stop := c.skip line.length
      do
        let (breaks', _, next) ← blockBreaks? (some indent) (stop.rest.length + 2) 0 stop.skipBreak
        let (text, lead', rest', last) ←
          blockLines? literal indent fuel stop.breakText breaks' startsBlank next
        return (glue ++ line ++ text, lead', rest', last)

/-- A block scalar at its indicator. `parent` is the column of the collection around it,
or -1. -/
def block? (literal : Bool) (parent : Int) (c : Cursor) : Option (List Char × Cursor) := do
  let (how, stated, c) ← blockHeader? (c.skip 1)
  let c := c.skipRun isBlank
  let c := if c.sees 0 '#' then c.skipRun (fun x => !isBreak x) else c
  if !c.atBreakOrEnd 0 then none
  let c := c.skipBreak
  let known := stated.map fun n => if 0 ≤ parent then parent.toNat + n else n
  let (breaks, widest, c) ← blockBreaks? known (c.rest.length + 2) 0 c
  let indent := known.getD (max (max widest (parent + 1).toNat) 1)
  let (text, lead, rest, last) ←
    blockLines? literal indent (c.rest.length + 2) [] breaks false c
  let tail := match how with
    | .strip => []
    | .clip => lead
    | .keep => lead ++ rest
  return (text ++ tail, last)

end Resampler.Yaml
