import PlotGrammar.Yaml.Property
import PlotGrammar.Yaml.Scalar

/-! # Tokens

  The tokens of a text: its marks, properties and scalars, and the starts and
  ends of the blocks that its indentation makes.

  - A block starts where a dash or a key stands deeper than the block around
    it, and it ends where something stands less deep.
  - That something is a key shows only at the colon after it. Until then it is
    a possible key, and no token from its place on is given out.
  - A possible key ends with its line, or after 1024 octets. One that
    stands in the column of a block has to become a key.

  The tokens of a text that stops making sense are those given out before.
-/

namespace PlotGrammar.Yaml

/-- What was read of a text, and the line at which it stops making sense, if it
    does. -/
structure Readout (α : Type) where
  items : List α
  fault : Option Nat := none

namespace Readout

/-- The line that is given when more is asked for than could be read. -/
def faultLine {α : Type} (r : Readout α) : Nat := r.fault.getD 0

/-- What was read, after one more item. -/
def cons {α : Type} (a : α) (r : Readout α) : Readout α := { r with items := a :: r.items }

end Readout

/-- What a token is. -/
inductive Token.Kind where
  | directive (directive : Directive)
  | documentStart
  | documentEnd
  | blockSequence
  | blockMapping
  | blockEnd
  | flowSequence
  | flowSequenceEnd
  | flowMapping
  | flowMappingEnd
  | blockEntry
  | flowEntry
  | key
  | value
  | alias (name : String)
  | anchor (name : String)
  | tag (tag : Tag)
  | scalar (style : Style) (text : String)
  | textEnd
deriving DecidableEq, Repr

/-- A token and its line. -/
structure Token where
  line : Nat
  kind : Token.Kind
deriving Repr

/-! ### Possible keys -/

/-- What may turn out to be a key. -/
structure PossibleKey where
  /-- Whether nothing but a key makes sense here. -/
  required : Bool
  /-- The number of the first token of the key. -/
  number : Nat
  /-- The place where the key starts. -/
  start : Cursor

/-- The most octets from the start of a key to its colon. -/
def mostKeyOctets : Nat := 1024

/-- Whether a possible key cannot be one anymore. -/
def PossibleKey.isStale (key : PossibleKey) (c : Cursor) : Bool :=
  key.start.line < c.line || key.start.octets + mostKeyOctets < c.octets

/-- A text in the course of being read. -/
structure Scan where
  cursor : Cursor
  /-- The columns of the blocks around the place, the deepest first. -/
  blocks : List Nat := []
  /-- The possible key within the deepest brackets. -/
  key : Option PossibleKey := none
  /-- The possible keys outside of the brackets around the place. -/
  outerKeys : List (Option PossibleKey) := []
  /-- Whether a key may start here. -/
  keyAllowed : Bool := true
  /-- The tokens that were read and not given out. -/
  queue : List Token := []
  /-- The number of tokens that were given out. -/
  taken : Nat := 0

namespace Scan

/-- Whether the place is inside brackets. -/
def inFlow (s : Scan) : Bool := !s.outerKeys.isEmpty

/-- Read a token that starts at the place. -/
def push (kind : Token.Kind) (s : Scan) : Scan :=
  { s with queue := s.queue ++ [⟨s.cursor.line, kind⟩] }

/-- Go on from another place. -/
def moveTo (after : Cursor) (s : Scan) : Scan := { s with cursor := after }

/-- Read a token of some characters. -/
def mark (length : Nat) (kind : Token.Kind) (s : Scan) : Scan :=
  (s.push kind).moveTo (s.cursor.drop length)

/-- Say whether a key may start here. -/
def allowKey (allowed : Bool) (s : Scan) : Scan := { s with keyAllowed := allowed }

/-- Forget the possible key, which must not be required. -/
def dropKey (s : Scan) : Result Scan :=
  if s.key.any (·.required) then .error s.cursor.line else .ok { s with key := none }

/-- Note that what starts at the place may be a key. -/
def saveKey (s : Scan) : Result Scan :=
  if !s.keyAllowed then .ok s
  else do
    let s ← s.dropKey
    let c := s.cursor
    let required := !s.inFlow && s.blocks.head? == some c.column
    return { s with key := some ⟨required, s.taken + s.queue.length, c⟩ }

/-- Forget the possible keys that cannot be keys anymore. -/
def dropStaleKeys (s : Scan) : Result Scan :=
  let isStale (key : Option PossibleKey) := key.any (·.isStale s.cursor)
  let refresh (key : Option PossibleKey) := if isStale key then none else key
  if (s.key :: s.outerKeys).any fun key => isStale key && key.any (·.required) then
    .error s.cursor.line
  else .ok { s with key := refresh s.key, outerKeys := s.outerKeys.map refresh }

/-! ### Blocks -/

/-- Start a block of a column, unless one of that column or deeper is open. Its
    token goes to a place in the queue. Inside brackets there are no blocks. -/
def openBlock (column place : Nat) (token : Token) (s : Scan) : Scan :=
  if s.inFlow || s.blocks.head?.any (column ≤ ·) then s
  else { s with blocks := column :: s.blocks, queue := s.queue.insertIdx place token }

/-- Start a block at the place. -/
def openBlockHere (kind : Token.Kind) (s : Scan) : Result Scan :=
  if s.inFlow then .ok s
  else if !s.keyAllowed then .error s.cursor.line
  else .ok (s.openBlock s.cursor.column s.queue.length ⟨s.cursor.line, kind⟩)

/-- End the blocks of some columns. -/
def closeBlocks (deeper : Nat → Bool) (s : Scan) : Scan :=
  if s.inFlow then s
  else
    let closed := (s.blocks.takeWhile deeper).map fun _ => (⟨s.cursor.line, .blockEnd⟩ : Token)
    { s with blocks := s.blocks.dropWhile deeper, queue := s.queue ++ closed }

/-! ### Marks -/

/-- The end of the text, on a line of its own. -/
def finish (s : Scan) : Result Scan := do
  let c := s.cursor
  let s := s.moveTo (if c.column = 0 then c else ⟨c.line + 1, 0, 0, []⟩)
  let s ← (s.closeBlocks fun _ => true).dropKey
  return (s.allowKey false).push .textEnd

/-- A directive. -/
def directive (s : Scan) : Result Scan := do
  let s ← (s.closeBlocks fun _ => true).dropKey
  let (found, after) ← Yaml.directive s.cursor
  return ((s.allowKey false).push (.directive found)).moveTo after

/-- A mark between documents. -/
def documentMark (kind : Token.Kind) (s : Scan) : Result Scan := do
  let s ← (s.closeBlocks fun _ => true).dropKey
  return (s.allowKey false).mark 3 kind

/-- An opening bracket, which may start a key. -/
def openFlow (kind : Token.Kind) (s : Scan) : Result Scan := do
  let s ← s.saveKey
  return ({ s with key := none, outerKeys := s.key :: s.outerKeys }.allowKey true).mark 1 kind

/-- A closing bracket. Behind it there is again the key it may belong to. -/
def closeFlow (kind : Token.Kind) (s : Scan) : Result Scan := do
  let s ← s.dropKey
  let s := { s with key := s.outerKeys.head?.getD none, outerKeys := s.outerKeys.drop 1 }
  return (s.allowKey false).mark 1 kind

/-- A comma. -/
def flowEntry (s : Scan) : Result Scan := do
  let s ← s.dropKey
  return (s.allowKey true).mark 1 .flowEntry

/-- A dash. -/
def blockEntry (s : Scan) : Result Scan := do
  let s ← s.openBlockHere .blockSequence
  let s ← s.dropKey
  return (s.allowKey true).mark 1 .blockEntry

/-- A question mark. -/
def keyMark (s : Scan) : Result Scan := do
  let s ← s.openBlockHere .blockMapping
  let s ← s.dropKey
  return (s.allowKey !s.inFlow).mark 1 .key

/-- A colon, which makes a key of the possible key, if there is one. -/
def valueMark (s : Scan) : Result Scan := do
  match s.key with
  | some key =>
    let place := key.number - s.taken
    let line := key.start.line
    let s := { s with key := none, queue := s.queue.insertIdx place ⟨line, .key⟩ }
    let s := s.openBlock key.start.column place ⟨line, .blockMapping⟩
    return (s.allowKey false).mark 1 .value
  | none =>
    let s ← s.openBlockHere .blockMapping
    return (s.allowKey !s.inFlow).mark 1 .value

/-! ### Properties and scalars -/

/-- Something that may start a key, and after which no key starts. -/
def inKey (read : Cursor → Result (Token.Kind × Cursor)) (s : Scan) : Result Scan := do
  let s ← s.saveKey
  let (kind, after) ← read s.cursor
  return ((s.allowKey false).push kind).moveTo after

/-- An anchor or an alias. -/
def named (kind : String → Token.Kind) : Scan → Result Scan :=
  inKey fun c => do
    let (name, after) ← anchorName c.step
    return (kind name, after)

/-- A tag. -/
def tagged (s : Scan) : Result Scan :=
  s.inKey fun c => do
    let (tag, after) ← Yaml.tag s.inFlow c
    return (.tag tag, after)

/-- A quoted scalar. -/
def quotedScalar (quote : Char) (steps : Nat) : Scan → Result Scan :=
  inKey fun c => do
    let (text, after) ← quoted quote steps c
    return (.scalar .quoted (String.ofList text), after)

/-- A plain scalar. A key may start after it if it ends with its line. -/
def plainScalar (steps : Nat) (s : Scan) : Result Scan := do
  let s ← s.saveKey
  let found ← plain s.inFlow (s.blocks.head?.elim 0 (· + 1)) steps s.cursor
  return ((s.allowKey found.broken).push (.scalar .plain (String.ofList found.text))).moveTo found.after

/-- A block scalar. -/
def blockScalar (style : Style) (steps : Nat) (s : Scan) : Result Scan := do
  let s ← s.dropKey
  let (text, after) ← block style s.blocks.head? steps s.cursor
  return ((s.allowKey true).push (.scalar style (String.ofList text))).moveTo after

/-! ### The next token -/

/-- The place after blanks, comments and breaks. A tab is no blank where it
    could be taken for indentation. Outside of brackets a key may start on a new
    line. -/
def skipGaps : Nat → Scan → Scan
  | 0, s => s
  | steps + 1, s =>
    let c := s.cursor
    -- A byte order mark may start a line.
    let c := if c.column = 0 && c.isAt '\ufeff' then c.step else c
    let c := c.skipWhile fun x => x == ' ' || (x == '\t' && (s.inFlow || !s.keyAllowed))
    let c := c.skipComment
    if c.rest.head?.any isBreak then
      skipGaps steps ((s.moveTo c.step).allowKey (s.keyAllowed || !s.inFlow))
    else s.moveTo c

/-- Read what starts with a character that is no mark between documents. -/
def content (steps : Nat) (x : Char) (rest : List Char) (s : Scan) : Result Scan :=
  match x with
  | '[' => s.openFlow .flowSequence
  | '{' => s.openFlow .flowMapping
  | ']' => s.closeFlow .flowSequenceEnd
  | '}' => s.closeFlow .flowMappingEnd
  | ',' => s.flowEntry
  | '*' => s.named .alias
  | '&' => s.named .anchor
  | '!' => s.tagged
  | '"' => s.quotedScalar '"' steps
  | '\'' => s.quotedScalar '\'' steps
  | _ =>
    if x == '-' && atGap rest then s.blockEntry
    else if x == '?' && (s.inFlow || atGap rest) then s.keyMark
    else if x == ':' && (s.inFlow || atGap rest) then s.valueMark
    else if x == '|' && !s.inFlow then s.blockScalar .literal steps
    else if x == '>' && !s.inFlow then s.blockScalar .folded steps
    else if startsPlain s.inFlow x rest then s.plainScalar steps
    else .error s.cursor.line

/-- Read at least one more token, in more steps than there are characters. -/
def fetch (steps : Nat) (s : Scan) : Result Scan := do
  let s ← (s.skipGaps steps).dropStaleKeys
  let s := s.closeBlocks (s.cursor.column < ·)
  let c := s.cursor
  match c.rest with
  | [] => s.finish
  | x :: rest =>
    if c.column = 0 && x == '%' then s.directive
    else if c.atMark '-' then s.documentMark .documentStart
    else if c.atMark '.' then s.documentMark .documentEnd
    else s.content steps x rest

/-- The next token, if it can be given out, and the text after it. -/
def next? (s : Scan) : Result (Option (Token × Scan)) :=
  match s.queue with
  | [] => .ok none
  | token :: queue => do
    let s ← s.dropStaleKeys
    if (s.key :: s.outerKeys).any fun key => key.any (·.number == s.taken) then return none
    return some (token, { s with queue := queue, taken := s.taken + 1 })

/-- Read at least one more token before a place from which on nothing can be
    read, if there is one. That place is found out at its portion of the text,
    and is reported at the first line. -/
def fetchBefore (limit : Option Cursor) (steps : Nat) (s : Scan) : Result Scan :=
  match s.fetch steps with
  | .error line => .error (if limit.any (·.line ≤ line) then 1 else line)
  | .ok s => if limit.any s.cursor.reaches then .error 1 else .ok s

/-- The tokens from here on, in so many steps. -/
def tokens (limit : Option Cursor) : Nat → Scan → Readout Token
  | 0, s => ⟨[], some s.cursor.line⟩
  | steps + 1, s =>
    match s.next? with
    | .error line => ⟨[], some line⟩
    | .ok (some (token, s)) =>
      if token.kind = .textEnd then ⟨[token], none⟩ else .cons token (tokens limit steps s)
    | .ok none =>
      match s.fetchBefore limit steps with
      | .error line => ⟨[], some line⟩
      | .ok s => tokens limit steps s

end Scan

/-- The tokens of a text, up to the portion with a character that is not allowed. -/
def tokens (text : String) : Readout Token :=
  let cs := text.toList
  let limit := (soundLength? 0 0 0 cs).map fun n => (Cursor.start (cs.take n)).drop n
  -- A character makes at most a block, a key and a colon, and the end of the block.
  Scan.tokens limit (6 * cs.length + 8) { cursor := .start cs }

end PlotGrammar.Yaml
