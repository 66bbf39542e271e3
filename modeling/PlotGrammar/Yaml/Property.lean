import PlotGrammar.Yaml.Cursor
import PlotGrammar.Yaml.Integer

/-! # Properties and directives

  What stands before a node: an anchor, which gives it a name, and a tag, which
  says what it is. A tag is written in full, or as a handle that a directive
  declares and the rest of the name.
-/

namespace PlotGrammar.Yaml

/-- The short form of a tag: a handle and the rest of its name. A tag written
    in full has no handle. -/
structure Tag where
  handle : String
  suffix : String
deriving DecidableEq, Repr

/-- A line of its own before a document. -/
inductive Directive where
  | version (major minor : Nat)
  /-- The name that a handle stands for. -/
  | shorthand (handle name : String)
deriving DecidableEq, Repr

/-! ### Anchors -/

/-- The name of an anchor after its sign. -/
def anchorName (c : Cursor) : Result (String × Cursor) :=
  let name := c.takeWhile isNameChar
  let after := c.drop name.length
  let ended := after.rest.head?.all fun x =>
    isGap x || ['?', ':', ',', ']', '}', '%', '@', '\x60'].contains x
  if !name.isEmpty && ended then .ok (String.ofList name, after) else .error c.line

/-! ### Names of tags -/

/-- Whether a character may stand in the name of a tag. -/
def isTagChar (full : Bool) (c : Char) : Bool :=
  isNameChar c
    || [';', '/', '?', ':', '@', '&', '=', '+', '$', '.', '!', '~', '*', '\'', '(', ')'].contains c
    || (full && [',', '[', ']'].contains c)

/-- The number of octets of a sequence that starts with a given one. -/
def octetCount? (octet : Nat) : Option Nat :=
  if octet < 0x80 then some 1
  else if octet < 0xC0 then none
  else if octet < 0xE0 then some 2
  else if octet < 0xF0 then some 3
  else if octet < 0xF8 then some 4
  else none

/-- How many octets of a sequence are still to come after one of them, if
    `pending` were to come before it. -/
def octetsAfter? (pending octet : Nat) : Option Nat :=
  if pending = 0 then (octetCount? octet).map (· - 1)
  else if 0x80 ≤ octet ∧ octet < 0xC0 then some (pending - 1)
  else none

/-- The characters of a name at the start of a text, and how many characters
    of the text they take. An escape stands for an octet, and `pending` of them
    are still to come. -/
def tagChars? (full : Bool) : Nat → List Char → Option (List Char × Nat)
  | pending, '%' :: a :: b :: rest => do
    let octet ← digitsValue? 16 [a, b]
    let (more, length) ← tagChars? full (← octetsAfter? pending octet) rest
    return (Char.ofNat octet :: more, length + 3)
  | pending, [] => if pending = 0 then some ([], 0) else none
  | pending, c :: rest =>
    if pending ≠ 0 ∨ c = '%' then none
    else if isTagChar full c then do
      let (more, length) ← tagChars? full 0 rest
      return (c :: more, length + 1)
    else some ([], 0)

/-- The name at a place, which starts with characters read before. An octet of
    zero ends the name, but not what is read of it. -/
def tagName (full : Bool) (before : List Char) (c : Cursor) : Result (String × Cursor) :=
  match tagChars? full 0 c.rest with
  | none => .error c.line
  | some (name, length) =>
    .ok (String.ofList ((before ++ name).takeWhile (· != '\x00')), c.drop length)

/-- A name at a place that may not be missing. -/
def requiredName (full : Bool) (c : Cursor) : Result (String × Cursor) := do
  let (name, after) ← tagName full [] c
  if after.column = c.column then throw c.line
  return (name, after)

/-! ### Tags -/

/-- The exclamation mark at a place, the word after it, and the mark that makes
    them a handle. -/
def handle (c : Cursor) : List Char × Cursor :=
  let word := '!' :: c.step.takeWhile isNameChar
  let after := c.drop word.length
  if after.isAt '!' then (word ++ ['!'], after.step) else (word, after)

/-- A tag, whatever follows it. -/
def tagForm (c : Cursor) : Result (Tag × Cursor) := do
  if c.step.isAt '<' then
    let (name, after) ← requiredName true (c.drop 2)
    if after.isAt '>' then return (⟨"", name⟩, after.step) else throw c.line
  else
    let (word, behind) := handle c
    if 1 < word.length && word.getLast? == some '!' then
      let (name, after) ← requiredName false behind
      return (⟨String.ofList word, name⟩, after)
    else
      let (name, after) ← tagName false (word.drop 1) behind
      return (if name.isEmpty then ⟨"", "!"⟩ else ⟨"!", name⟩, after)

/-- A tag at a place. -/
def tag (inFlow : Bool) (c : Cursor) : Result (Tag × Cursor) := do
  let (form, after) ← tagForm c
  if atGap after.rest || (inFlow && after.isAt ',') then return (form, after) else throw c.line

/-! ### Directives -/

/-- A number of at most nine digits. -/
def versionNumber (c : Cursor) : Result (Nat × Cursor) :=
  let digits := c.takeWhile Char.isDigit
  match digitsValue? 10 digits with
  | some n => if digits.length ≤ 9 then .ok (n, c.drop digits.length) else .error c.line
  | none => .error c.line

/-- The two numbers of a version. -/
def version (c : Cursor) : Result (Directive × Cursor) := do
  let (major, after) ← versionNumber c
  if !after.isAt '.' then throw c.line
  let (minor, after) ← versionNumber after.step
  return (.version major minor, after)

/-- A handle and the name it stands for. -/
def shorthand (c : Cursor) : Result (Directive × Cursor) := do
  if !c.isAt '!' then throw c.line
  let (word, after) := handle c
  if word ≠ ['!'] && word.getLast? != some '!' then throw c.line
  if !after.rest.head?.any isBlank then throw c.line
  let (name, after) ← requiredName true (after.skipWhile isBlank)
  if !atGap after.rest then throw c.line
  return (.shorthand (String.ofList word) name, after)

/-- The directive on a line, and the line after it. -/
def directive (c : Cursor) : Result (Directive × Cursor) := do
  let name := c.step.takeWhile isNameChar
  let behind := c.step.drop name.length
  if !atGap behind.rest then throw c.line
  let value := behind.skipWhile isBlank
  let (found, after) ←
    match String.ofList name with
    | "YAML" => version value
    | "TAG" => shorthand value
    | _ => throw c.line
  return (found, ← after.nextLine)

end PlotGrammar.Yaml
