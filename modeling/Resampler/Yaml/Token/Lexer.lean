import Resampler.Yaml.Property

/-!
Cutting a YAML text into tokens.

The lexer goes over the text once. It keeps the columns of the block collections
that are open, and for each level of brackets the last place where a key may have
begun. A colon turns that place into a key, and in a block also into the start of
a mapping if its column lies further right than every open collection. A key stands
on one line and within 1024 bytes; a place that falls behind is dropped, or is
an error if only a key could have stood there.
-/

namespace Resampler.Yaml

/-- A place where a key may have begun. -/
structure KeyPlace where
  /-- the number of tokens before it -/
  position : Nat
  index : Nat
  line : Nat
  column : Nat
  /-- whether nothing but a key can stand there -/
  required : Bool
deriving DecidableEq, Repr, Inhabited

/-- Whether a place has fallen behind a cursor. -/
def KeyPlace.isStale (k : KeyPlace) (c : Cursor) : Bool :=
  k.line < c.line || k.index + 1024 < c.index

/-- A text that is partly cut into tokens. -/
structure Lexer where
  cursor : Cursor
  tokens : Array Token
  /-- the columns of the open block collections, the innermost first -/
  columns : List Nat
  /-- the place for a key inside the innermost brackets -/
  place : Option KeyPlace
  /-- the places around the brackets that are open, the innermost first -/
  outer : List (Option KeyPlace)
  /-- whether a key may begin here -/
  keyAllowed : Bool
deriving Repr, Inhabited

namespace Lexer

def ofText (s : String) : Lexer where
  cursor := .ofText s
  tokens := #[]
  columns := []
  place := none
  outer := []
  keyAllowed := true

def inFlow (l : Lexer) : Bool := !l.outer.isEmpty

/-- The column of the innermost block collection, -1 outside of any. -/
def indent (l : Lexer) : Int :=
  match l.columns with
  | [] => -1
  | c :: _ => c

def push (l : Lexer) (t : Token) : Lexer := { l with tokens := l.tokens.push t }

def pushSign (l : Lexer) (t : Token) (n : Nat) : Lexer :=
  { l.push t with cursor := l.cursor.skip n }

/-- Adds what was read at the cursor. -/
def pushRead (l : Lexer) (read : Option (Token × Cursor)) : Option Lexer :=
  read.map fun (t, c) => { l.push t with cursor := c }

/-- Inserts tokens before the one at a position. -/
def insert (l : Lexer) (position : Nat) (ts : Array Token) : Lexer :=
  { l with
    tokens := l.tokens.extract 0 position ++ ts ++ l.tokens.extract position l.tokens.size }

/-- Says whether a key may begin here. -/
def allowKey (l : Lexer) (allowed : Bool) : Lexer := { l with keyAllowed := allowed }

/-! Block collections. -/

/-- Closes the block collections whose columns lie further right than `column`. -/
def closeBlocks (l : Lexer) (column : Int) : Lexer :=
  if l.inFlow then l
  else
    let n := (l.columns.takeWhile fun c : Nat => column < c).length
    { l with
      columns := l.columns.drop n
      tokens := l.tokens ++ Array.replicate n .blockEnd }

/-- Whether a collection at `column` would be a new one. -/
def opensBlock (l : Lexer) (column : Nat) : Bool := !l.inFlow && l.indent < column

/-- Opens a block collection at the cursor, unless one is open there. -/
def openBlock (l : Lexer) (start : Token) : Lexer :=
  if l.opensBlock l.cursor.column then
    { l.push start with columns := l.cursor.column :: l.columns }
  else
    l

/-! Places for keys. -/

/-- Drops the place for a key, where it is not required. -/
def dropPlace (l : Lexer) : Option Lexer :=
  if l.place.any (·.required) then none else some { l with place := none }

/-- Remembers that a key may begin here. -/
def markPlace (l : Lexer) : Option Lexer :=
  if l.keyAllowed then do
    let l ← l.dropPlace
    let c := l.cursor
    return { l with
      place := some {
        position := l.tokens.size
        index := c.index
        line := c.line
        column := c.column
        required := !l.inFlow && l.indent == c.column } }
  else
    some l

/-- Drops a place that has fallen behind, where it is not required. -/
def dropStale (c : Cursor) (place : Option KeyPlace) : Option (Option KeyPlace) :=
  match place with
  | none => some none
  | some k => if k.isStale c then (if k.required then none else some none) else some place

/-- Drops all places that have fallen behind. -/
def dropStalePlaces (l : Lexer) : Option Lexer := do
  let place ← dropStale l.cursor l.place
  let outer ← l.outer.mapM (dropStale l.cursor)
  return { l with place, outer }

/-! Blanks. -/

/-- Goes over blanks, comments and line breaks, and over a byte order mark where a line
begins. In a block, a key may begin after a line break, and tabs are no blanks where a
key may begin. -/
def skipBlanks (flow : Bool) : Nat → Bool → Cursor → Bool × Cursor
  | 0, allowed, c => (allowed, c)
  | fuel + 1, allowed, c =>
    let c := if c.column == 0 && c.sees 0 '\ufeff' then c.skip 1 else c
    let c := c.skipRun fun x => x = ' ' || ((flow || !allowed) && x = '\t')
    let c := if c.sees 0 '#' then c.skipRun (fun x => !isBreak x) else c
    if c.atBreak 0 then skipBlanks flow fuel (allowed || !flow) c.skipBreak
    else (allowed, c)

/-- Goes to the next token, and drops and closes what ends before it. -/
def advance (l : Lexer) : Option Lexer := do
  let (keyAllowed, cursor) :=
    skipBlanks l.inFlow (l.cursor.rest.length + 1) l.keyAllowed l.cursor
  let l ← { l with cursor, keyAllowed }.dropStalePlaces
  return l.closeBlocks cursor.column

/-! Tokens. -/

/-- What ends a document: its block collections do, and no key may be open. -/
def endDocument (l : Lexer) : Option Lexer := do
  return (← (l.closeBlocks (-1)).dropPlace).allowKey false

def openFlow (l : Lexer) (t : Token) : Option Lexer := do
  let l ← l.markPlace
  return ({ l with outer := l.place :: l.outer, place := none }.allowKey true).pushSign t 1

def closeFlow (l : Lexer) (t : Token) : Option Lexer := do
  let l ← l.dropPlace
  let l := match l.outer with
    | [] => l
    | place :: outer => { l with place, outer }
  return (l.allowKey false).pushSign t 1

def entryFlow (l : Lexer) : Option Lexer := do
  return ((← l.dropPlace).allowKey true).pushSign .flowEntry 1

def entryBlock (l : Lexer) : Option Lexer := do
  if !l.inFlow && !l.keyAllowed then none
  let l ← (l.openBlock .blockSequenceStart).dropPlace
  return (l.allowKey true).pushSign .blockEntry 1

def key (l : Lexer) : Option Lexer := do
  if !l.inFlow && !l.keyAllowed then none
  let l ← (l.openBlock .blockMappingStart).dropPlace
  return (l.allowKey !l.inFlow).pushSign .key 1

def value (l : Lexer) : Option Lexer :=
  match l.place with
  | some k =>
    let opens := l.opensBlock k.column
    let l := { l with
      place := none
      columns := if opens then k.column :: l.columns else l.columns }
    let l := l.insert k.position (if opens then #[.blockMappingStart, .key] else #[.key])
    some ((l.allowKey false).pushSign .value 1)
  | none => do
    if !l.inFlow && !l.keyAllowed then none
    return ((l.openBlock .blockMappingStart).allowKey !l.inFlow).pushSign .value 1

/-- An anchor, an alias or a tag. -/
def property (l : Lexer) (read : Cursor → Option (Token × Cursor)) : Option Lexer := do
  let l ← l.markPlace
  (l.allowKey false).pushRead (read l.cursor)

/-- A scalar written as a block of lines. -/
def block (l : Lexer) (literal : Bool) : Option Lexer := do
  let l ← l.dropPlace
  let (text, c) ← block? literal l.indent l.cursor
  let style := if literal then Style.literal else Style.folded
  return { (l.allowKey true).push (.scalar (String.ofList text) style) with cursor := c }

def quoted (l : Lexer) (single : Bool) : Option Lexer := do
  let l ← l.markPlace
  let (text, c) ← quoted? single l.cursor
  let style := if single then Style.singleQuoted else Style.doubleQuoted
  return { (l.allowKey false).push (.scalar (String.ofList text) style) with cursor := c }

/-- A plain scalar. A key may begin after it if it ends a line. -/
def plain (l : Lexer) : Option Lexer := do
  let l ← l.markPlace
  let (text, broken, c) ← plain? l.inFlow (l.indent + 1).toNat l.cursor
  return { (l.allowKey broken).push (.scalar (String.ofList text) .plain) with cursor := c }

/-- Whether a plain scalar may begin here. -/
def beginsPlain (l : Lexer) : Bool :=
  let c := l.cursor
  !(c.atGap 0 || c.seesAny 0 "-?:,[]\x7b\x7d#&*!|>'\"%@\x60")
    || (c.sees 0 '-' && !c.atBlank 1)
    || (!l.inFlow && c.seesAny 0 "?:" && !c.atGap 1)

def token (l : Lexer) : Option Lexer :=
  let c := l.cursor
  if c.column == 0 && c.sees 0 '%' then do
    let l ← l.endDocument
    l.pushRead (directive? c)
  else if c.atMarker '-' then do return (← l.endDocument).pushSign .documentStart 3
  else if c.atMarker '.' then do return (← l.endDocument).pushSign .documentEnd 3
  else if c.sees 0 '[' then l.openFlow .flowSequenceStart
  else if c.sees 0 '\x7b' then l.openFlow .flowMappingStart
  else if c.sees 0 ']' then l.closeFlow .flowSequenceEnd
  else if c.sees 0 '\x7d' then l.closeFlow .flowMappingEnd
  else if c.sees 0 ',' then l.entryFlow
  else if c.sees 0 '-' && c.atGap 1 then l.entryBlock
  else if c.sees 0 '?' && (l.inFlow || c.atGap 1) then l.key
  else if c.sees 0 ':' && (l.inFlow || c.atGap 1) then l.value
  else if c.sees 0 '*' then l.property (name? .reference)
  else if c.sees 0 '&' then l.property (name? .anchor)
  else if c.sees 0 '!' then l.property (tag? l.inFlow)
  else if c.sees 0 '|' && !l.inFlow then l.block true
  else if c.sees 0 '>' && !l.inFlow then l.block false
  else if c.sees 0 '\'' then l.quoted true
  else if c.sees 0 '"' then l.quoted false
  else if l.beginsPlain then l.plain
  else none

def run : Nat → Lexer → Option (Array Token)
  | 0, _ => none
  | fuel + 1, l => do
    let l ← l.advance
    if l.cursor.atEnd then
      return ((← l.endDocument).push .streamEnd).tokens
    else
      run fuel (← l.token)

end Lexer

def tokens? (s : String) : Option (List Token) :=
  if s.toList.all isPrintable then ((Lexer.ofText s).run (s.length + 1)).map (·.toList) else none

end Resampler.Yaml
