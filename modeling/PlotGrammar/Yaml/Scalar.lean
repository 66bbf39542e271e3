import PlotGrammar.Yaml.Cursor
import PlotGrammar.Yaml.Integer

/-! # Scalars

  The texts of plain, quoted and block scalars. A text may run over several
  lines: one break between two words becomes a space, and of several breaks
  the first is dropped. Block scalars keep their lines or fold them likewise.

  The recursion is bounded by a number of steps. Every step takes a character,
  so more steps than there are characters are enough.
-/

namespace PlotGrammar.Yaml

/-- How a scalar is written. -/
inductive Style where
  | plain
  | quoted
  /-- A block whose lines stay as they are. -/
  | literal
  /-- A block whose lines are joined. -/
  | folded
deriving DecidableEq, Repr

/-- The text that breaks between two words stand for. -/
def foldBreaks : List Char → List Char
  | ['\n'] => [' ']
  | '\n' :: more => more
  | breaks => breaks

/-- The text that a gap between two words stands for. -/
def foldGap (gap : List Char) : List Char :=
  if gap.any isBreak then foldBreaks (gap.filter isBreak) else gap

/-! ### Plain scalars -/

/-- Whether a plain scalar may start with a character. -/
def startsPlain (inFlow : Bool) (c : Char) (rest : List Char) : Bool :=
  if c == '-' then !rest.head?.any isBlank
  else if c == '?' || c == ':' then !inFlow && !atGap rest
  else !(isGap c || isBracket c
    || ['#', '&', '*', '!', '|', '>', '\'', '"', '%', '@', '\x60'].contains c)

/-- The length of the word that a text starts with: up to a gap, a colon before
    a gap, and inside brackets also a bracket or a comma. A colon right before
    one of these makes no sense there. -/
def wordLength? (inFlow : Bool) : List Char → Option Nat
  | [] => some 0
  | c :: rest =>
    if isGap c then some 0
    else if inFlow && c == ':' && rest.head?.any (fun x => isBracket x || x == '?') then none
    else if (c == ':' && atGap rest) || (inFlow && isBracket c) then some 0
    else (wordLength? inFlow rest).map (· + 1)

/-- The line of a tab that stands where a later line of a plain scalar is
    indented, which is before the column `least`. -/
def tabFault? (least first : Nat) : List Char → Cursor → Option Nat
  | [], _ => none
  | x :: gap, c =>
    if x == '\t' && first < c.line && c.column < least then some c.line
    else tabFault? least first gap c.step

/-- A plain scalar that has been read. -/
structure Plain where
  text : List Char
  /-- The place after the scalar and after the gap behind it. -/
  after : Cursor
  /-- Whether there is a break in that gap. -/
  broken : Bool

/-- The words of a plain scalar after a gap that may hold a break. Later lines
    start at the column `least` or after it. -/
def plainFrom (inFlow : Bool) (least : Nat) : Nat → List Char → Cursor → Result Plain
  | 0, _, c => .error c.line
  | steps + 1, gap, c =>
    let broken := gap.any isBreak
    if c.atAnyMark || c.isAt '#' then .ok ⟨[], c, broken⟩
    else
      match wordLength? inFlow c.rest with
      | none => .error c.line
      | some 0 => .ok ⟨[], c, broken⟩
      | some length =>
        let word := foldGap gap ++ c.rest.take length
        let behind := c.drop length
        let next := behind.takeWhile isGap
        match tabFault? least behind.line next behind with
        | some line => .error line
        | none =>
          let after := behind.drop next.length
          if next.isEmpty || (!inFlow && after.column < least) then
            .ok ⟨word, after, next.any isBreak⟩
          else do
            let more ← plainFrom inFlow least steps next after
            return { more with text := word ++ more.text }

/-- A plain scalar. -/
def plain (inFlow : Bool) (least steps : Nat) (c : Cursor) : Result Plain :=
  plainFrom inFlow least steps [] c

/-! ### Quoted scalars -/

/-- The character of a hexadecimal escape of a given length. -/
def hexEscape? (length : Nat) (cs : List Char) : Option (Char × Nat) :=
  let digits := cs.take length
  if digits.length = length then
    (digitsValue? 16 digits).bind fun n =>
      if n.isValidChar then some (Char.ofNat n, length + 1) else none
  else none

/-- The character of an escape and the length of the escape, read after its
    backslash. -/
def escape? : List Char → Option (Char × Nat)
  | '0' :: _ => some ('\x00', 1)
  | 'a' :: _ => some ('\x07', 1)
  | 'b' :: _ => some ('\x08', 1)
  | 't' :: _ => some ('\t', 1)
  | '\t' :: _ => some ('\t', 1)
  | 'n' :: _ => some ('\n', 1)
  | 'v' :: _ => some ('\x0b', 1)
  | 'f' :: _ => some ('\x0c', 1)
  | 'r' :: _ => some ('\r', 1)
  | 'e' :: _ => some ('\x1b', 1)
  | ' ' :: _ => some (' ', 1)
  | '"' :: _ => some ('"', 1)
  | '/' :: _ => some ('/', 1)
  | '\\' :: _ => some ('\\', 1)
  | 'N' :: _ => some ('\u0085', 1)
  | '_' :: _ => some ('\u00a0', 1)
  | 'L' :: _ => some ('\u2028', 1)
  | 'P' :: _ => some ('\u2029', 1)
  | 'x' :: cs => hexEscape? 2 cs
  | 'u' :: cs => hexEscape? 4 cs
  | 'U' :: cs => hexEscape? 8 cs
  | _ => none

/-- What stands next in a quoted scalar: a piece of its text and the place
    after it, or nothing if there is its closing quote. -/
def quotedPiece (quote : Char) (c : Cursor) : Result (Option (List Char × Cursor)) :=
  if c.atAnyMark then .error c.line
  else
    match c.rest with
    | [] => .error c.line
    | x :: rest =>
      if isGap x then
        let gap := c.takeWhile isGap
        .ok (some (foldGap gap, c.drop gap.length))
      else if x = quote then
        if quote = '\'' && rest.head? == some '\'' then .ok (some (['\''], c.drop 2)) else .ok none
      else if quote = '"' && x = '\\' then
        if rest.head?.any isBreak then
          -- An escaped break is dropped, and only further breaks count.
          let gap := (c.drop 2).takeWhile isGap
          .ok (some (gap.filter isBreak, c.drop (2 + gap.length)))
        else
          match escape? rest with
          | none => .error c.line
          | some (escaped, length) => .ok (some ([escaped], c.drop (length + 1)))
      else .ok (some ([x], c.step))

/-- The text of a quoted scalar after its opening quote, and the place after
    its closing one. -/
def quotedFrom (quote : Char) : Nat → Cursor → Result (List Char × Cursor)
  | 0, c => .error c.line
  | steps + 1, c => do
    match ← quotedPiece quote c with
    | none => return ([], c.step)
    | some (piece, after) =>
      let (text, last) ← quotedFrom quote steps after
      return (piece ++ text, last)

/-- The text of a quoted scalar, and the place after it. -/
def quoted (quote : Char) (steps : Nat) (c : Cursor) : Result (List Char × Cursor) :=
  quotedFrom quote steps c.step

/-! ### Block scalars -/

/-- What becomes of the breaks at the end of a block scalar. -/
inductive Chomping where
  | strip
  /-- Only the break of the last line stays. -/
  | clip
  | keep
deriving DecidableEq, Repr

/-- The marks after the sign of a block scalar. -/
structure BlockHeader where
  chomping : Chomping := .clip
  /-- The columns by which the text is indented, if they are given. -/
  indent : Option Nat := none

/-- The chomping that a character asks for. -/
def chomping? : List Char → Option Chomping
  | '-' :: _ => some .strip
  | '+' :: _ => some .keep
  | _ => none

/-- The indentation that a text starts with; it is not zero. -/
def blockIndent (c : Cursor) : Result (Option Nat) :=
  match c.rest with
  | '0' :: _ => .error c.line
  | x :: _ => .ok (if x.isDigit then some (x.toNat - '0'.toNat) else none)
  | [] => .ok none

/-- The marks after the sign of a block scalar in either order, and the place
    after them. -/
def blockHeader (c : Cursor) : Result (BlockHeader × Cursor) := do
  match chomping? c.rest with
  | some chomping =>
    let indent ← blockIndent c.step
    return (⟨chomping, indent⟩, c.step.drop indent.toList.length)
  | none =>
    match ← blockIndent c with
    | none => return ({}, c)
    | some indent =>
      match chomping? c.step.rest with
      | some chomping => return (⟨chomping, some indent⟩, c.drop 2)
      | none => return ({ indent := some indent }, c.step)

/-- The empty lines before a line of a block scalar, the place where the text
    of that line starts, and the largest column met on the way. A tab does not
    indent. -/
def blockBreaks (indent : Option Nat) : Nat → Nat → Cursor → Result (List Char × Cursor × Nat)
  | 0, _, c => .error c.line
  | steps + 1, most, c =>
    let spaces := (c.takeWhile (· == ' ')).length
    let start := c.drop (indent.elim spaces fun column => min spaces (column - c.column))
    let most := max most start.column
    if start.isAt '\t' && indent.all (start.column < ·) then .error start.line
    else if start.rest.head?.any isBreak then do
      let (breaks, after, most) ← blockBreaks indent steps most start.step
      return (start.rest.take 1 ++ breaks, after, most)
    else .ok ([], start, most)

/-- The text between two lines of a folded block scalar. Lines that start with
    a blank are not joined with others. -/
def blockJoint (style : Style) (aroundBlank : Bool) (last breaks : List Char) : List Char :=
  if style = .folded && last == ['\n'] && !aroundBlank then
    if breaks.isEmpty then [' '] else breaks
  else last ++ breaks

/-- The lines of a block scalar whose text starts in a column. Before the first
    of them stand the break `last` of the line before it and then `breaks`;
    `afterBlank` if that line starts with a blank. -/
def blockLines (style : Style) (chomping : Chomping) (column : Nat) :
    Nat → Bool → List Char → List Char → Cursor → Result (List Char × Cursor)
  | 0, _, _, _, c => .error c.line
  | steps + 1, afterBlank, last, breaks, c =>
    if c.column = column && !c.rest.isEmpty then do
      let blank := c.rest.head?.any isBlank
      let content := c.takeWhile (!isBreak ·)
      let ending := c.drop content.length
      let (next, after, _) ← blockBreaks (some column) steps 0 ending.step
      let (text, behind) ← blockLines style chomping column steps blank (ending.rest.take 1) next after
      return (blockJoint style (afterBlank || blank) last breaks ++ content ++ text, behind)
    else
      match chomping with
      | .strip => .ok ([], c)
      | .clip => .ok (last, c)
      | .keep => .ok (last ++ breaks, c)

/-- The text of a block scalar inside blocks of which the deepest has a given
    column, and the place after it. -/
def block (style : Style) (outer : Option Nat) (steps : Nat) (c : Cursor) :
    Result (List Char × Cursor) := do
  let (header, behind) ← blockHeader c.step
  let first ← behind.nextLine
  let given := header.indent.map (outer.getD 0 + ·)
  let (breaks, start, most) ← blockBreaks given steps 0 first
  -- The first line with text decides, but the text is deeper than what it is in.
  let column := given.getD (max most (outer.elim 1 (· + 1)))
  blockLines style header.chomping column steps false [] breaks start

end PlotGrammar.Yaml
