/-!
A place in a YAML text.

Indentation is stated in lines and columns and the length of keys in bytes, so a cursor
counts all three as it moves over characters. Five line breaks are known; a carriage
return and the line feed after it are one. The end of the text counts as a
blank and as a break where either would end something.
-/

namespace Resampler.Yaml

def isBlank (c : Char) : Bool := c = ' ' || c = '\t'

def isBreak (c : Char) : Bool :=
  c = '\n' || c = '\r' || c = '\u0085' || c = '\u2028' || c = '\u2029'

/-- A letter, a digit, an underscore or a hyphen of ASCII. -/
def isWord (c : Char) : Bool :=
  ('0' ≤ c && c ≤ '9') || ('A' ≤ c && c ≤ 'Z') || ('a' ≤ c && c ≤ 'z') || c = '_' || c = '-'

/-- The characters that may stand in a text at all. -/
def isPrintable (c : Char) : Bool :=
  c = '\t' || c = '\n' || c = '\r' || (' ' ≤ c && c ≤ '~') || c = '\u0085'
    || ('\u00a0' ≤ c && c ≤ '\ud7ff') || ('\ue000' ≤ c && c ≤ '\ufffd') || '\uffff' < c

/-- What is left of a text, and where that is. -/
structure Cursor where
  rest : List Char
  /-- the number of bytes before -/
  index : Nat
  line : Nat
  column : Nat
deriving DecidableEq, Repr, Inhabited

namespace Cursor

def ofText (s : String) : Cursor := ⟨s.toList, 0, 0, 0⟩

/-- The character `k` places ahead. -/
def peek (c : Cursor) (k : Nat) : Option Char := c.rest[k]?

/-- Whether a given character is `k` places ahead. -/
def sees (c : Cursor) (k : Nat) (x : Char) : Bool := c.peek k == some x

/-- Whether one of some characters is `k` places ahead. -/
def seesAny (c : Cursor) (k : Nat) (xs : String) : Bool := (c.peek k).any (xs.toList.contains ·)

def atEnd (c : Cursor) : Bool := c.rest.isEmpty

def atBlank (c : Cursor) (k : Nat) : Bool := (c.peek k).any isBlank

/-- Whether there is a line break ahead. -/
def atBreak (c : Cursor) (k : Nat) : Bool := (c.peek k).any isBreak

/-- Whether there is a line break or the end of the text ahead. -/
def atBreakOrEnd (c : Cursor) (k : Nat) : Bool := (c.peek k).all isBreak

/-- Whether there is a blank, a line break or the end of the text ahead. -/
def atGap (c : Cursor) (k : Nat) : Bool := (c.peek k).all fun x => isBlank x || isBreak x

/-- The number of bytes of some characters in UTF-8. -/
def byteLength (cs : List Char) : Nat := (cs.map (·.utf8Size)).foldl (· + ·) 0

/-- The cursor after `n` characters of the same line. -/
def skip (c : Cursor) (n : Nat) : Cursor :=
  ⟨c.rest.drop n, c.index + byteLength (c.rest.take n), c.line, c.column + n⟩

/-- The cursor after the line break that stands here. -/
def skipBreak (c : Cursor) : Cursor :=
  match c.rest with
  | '\r' :: '\n' :: rest => ⟨rest, c.index + 2, c.line + 1, 0⟩
  | x :: rest => ⟨rest, c.index + x.utf8Size, c.line + 1, 0⟩
  | [] => c

/-- What the line break that stands here contributes to a scalar. -/
def breakText (c : Cursor) : List Char :=
  match c.rest with
  | x :: _ => if x = '\u2028' ∨ x = '\u2029' then [x] else ['\n']
  | [] => []

/-- The run of characters of one kind that stands here. -/
def run (c : Cursor) (p : Char → Bool) : List Char := c.rest.takeWhile p

/-- The cursor after a run of characters of one kind, none of them a line break. -/
def skipRun (c : Cursor) (p : Char → Bool) : Cursor := c.skip (c.run p).length

/-- Whether a line starts here with three of the same character, followed by a gap. -/
def atMarker (c : Cursor) (x : Char) : Bool :=
  c.column == 0 && c.sees 0 x && c.sees 1 x && c.sees 2 x && c.atGap 3

end Cursor

end Resampler.Yaml
