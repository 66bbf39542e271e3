/-! # Places in a text

  A cursor is a place in a text: its line, counted from one, its column,
  counted from zero, and the characters from there on. A column counts
  characters; how far two places on a line are apart is counted in octets too.
  Every reader takes a cursor and gives back the one behind what it has read,
  or the line at which the text stops making sense.

  The breaks of a text are unified before it is read, so that each of them is
  one character.
-/

namespace PlotGrammar.Yaml

/-- A result, or the line at which the text stops making sense. -/
abbrev Result (α : Type) := Except Nat α

/-! ### Characters -/

/-- Whether a text may hold a character. -/
def isAllowed (c : Char) : Bool :=
  let n := c.toNat
  n == 0x09 || n == 0x0A || n == 0x0D || (0x20 ≤ n && n ≤ 0x7E) || n == 0x85
    || (0xA0 ≤ n && n ≤ 0xFFFD) || 0x10000 ≤ n

/-- The most octets of a portion. A text is taken in by portions, each of as
    many whole characters as fit. -/
def portionOctets : Nat := Nat.pow 2 14

/-- The number of characters before the first portion that holds a character
    that is not allowed. Before the text stand `start` characters in earlier
    portions, `index` in all, and those of its portion take `octets`. -/
def soundLength? (start index octets : Nat) : List Char → Option Nat
  | [] => none
  | c :: cs =>
    let isFull := portionOctets < octets + c.utf8Size
    let start := if isFull then index else start
    let octets := if isFull then 0 else octets
    if isAllowed c then soundLength? start (index + 1) (octets + c.utf8Size) cs else some start

/-- The characters with one line feed for a line feed, a carriage return, both
    together, and a next line. The separators of lines and paragraphs stay. -/
def unifyBreaks : List Char → List Char
  | '\r' :: '\n' :: cs => '\n' :: unifyBreaks cs
  | '\r' :: cs => '\n' :: unifyBreaks cs
  | '\u0085' :: cs => '\n' :: unifyBreaks cs
  | c :: cs => c :: unifyBreaks cs
  | [] => []

/-- Whether a character ends a line. -/
def isBreak (c : Char) : Bool := c == '\n' || c == '\u2028' || c == '\u2029'

/-- Whether a character is a blank inside a line. -/
def isBlank (c : Char) : Bool := c == ' ' || c == '\t'

/-- Whether a character separates words. -/
def isGap (c : Char) : Bool := isBlank c || isBreak c

/-- Whether a text ends or goes on with a gap. -/
def atGap (cs : List Char) : Bool := cs.head?.all isGap

/-- Whether a character may stand in the name of an anchor or a directive. -/
def isNameChar (c : Char) : Bool := c.isAlphanum || c == '_' || c == '-'

/-- Whether a character is a bracket or a comma. -/
def isBracket (c : Char) : Bool := ['[', ']', '{', '}', ','].contains c

/-! ### Cursors -/

/-- A place in a text. -/
structure Cursor where
  /-- The number of the line, from one. -/
  line : Nat
  /-- The number of characters before the place on its line. -/
  column : Nat
  /-- The number of UTF-8 octets before the place on its line. -/
  octets : Nat
  /-- The text from the place on. -/
  rest : List Char

namespace Cursor

/-- The start of a text. -/
def start (cs : List Char) : Cursor := ⟨1, 0, 0, unifyBreaks cs⟩

/-- The place after the next character. -/
def step (c : Cursor) : Cursor :=
  match c.rest with
  | [] => c
  | x :: rest =>
    if isBreak x then ⟨c.line + 1, 0, 0, rest⟩
    else ⟨c.line, c.column + 1, c.octets + x.utf8Size, rest⟩

/-- The place after some characters. -/
def drop (c : Cursor) : Nat → Cursor
  | 0 => c
  | count + 1 => c.step.drop count

/-- Whether a place is another one or comes after it. -/
def reaches (c other : Cursor) : Bool :=
  other.line < c.line || (other.line == c.line && other.column ≤ c.column)

/-- The characters of a kind at the place. -/
def takeWhile (c : Cursor) (kind : Char → Bool) : List Char := c.rest.takeWhile kind

/-- The place after the characters of a kind. -/
def skipWhile (c : Cursor) (kind : Char → Bool) : Cursor := c.drop (c.takeWhile kind).length

/-- Whether a character stands at the place. -/
def isAt (c : Cursor) (x : Char) : Bool := c.rest.head? == some x

/-- Whether a line starts with a mark between documents, which is three times
    the same character. -/
def atMark (c : Cursor) (x : Char) : Bool :=
  c.column == 0 && (c.rest.take 3 == [x, x, x]) && atGap (c.rest.drop 3)

/-- Whether a line starts with one of the marks between documents. -/
def atAnyMark (c : Cursor) : Bool := c.atMark '-' || c.atMark '.'

/-- The place after the comment that starts there, if one does. -/
def skipComment (c : Cursor) : Cursor := if c.isAt '#' then c.skipWhile (!isBreak ·) else c

/-- The start of the next line, if only blanks and a comment are left on this one. -/
def nextLine (c : Cursor) : Result Cursor :=
  let last := (c.skipWhile isBlank).skipComment
  if last.rest.head?.all isBreak then .ok last.step else .error c.line

end Cursor

end PlotGrammar.Yaml
