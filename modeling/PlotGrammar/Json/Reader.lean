import PlotGrammar.Json.Codec
import PlotGrammar.Json.Printer

/-! # Reading JSON

  `Json.read? limit text` reads a text that holds one value and only
  whitespace around it. More than `limit` arrays and objects inside each other
  are refused, as are raw control characters, lone surrogate escapes, numbers
  beyond the largest double and leading zeros.

  Every reader takes the characters that are left and gives back what it did
  not use. The recursion is bounded by a number of steps that is computed from
  the length of the text.

  With the writer of compact texts this is a codec (`Codec.compact`).
-/

namespace PlotGrammar.Json

/-! ### Blanks and digits -/

/-- The blanks that may stand between the parts of a text. -/
def isBlank (c : Char) : Bool := c == ' ' || c == '\t' || c == '\n' || c == '\r'

/-- The text without its leading blanks. -/
def skipBlanks (cs : List Char) : List Char := cs.dropWhile isBlank

/-- The value of a hexadecimal digit. -/
def hexDigit? (c : Char) : Option Nat :=
  if c.isDigit then some (c.toNat - '0'.toNat)
  else if 'a' ≤ c ∧ c ≤ 'f' then some (c.toNat - 'a'.toNat + 10)
  else if 'A' ≤ c ∧ c ≤ 'F' then some (c.toNat - 'A'.toNat + 10)
  else none

/-- The value of four hexadecimal digits, and what follows them. -/
def hexUnit? : List Char → Option (Nat × List Char)
  | a :: b :: c :: d :: rest => do
    let a ← hexDigit? a
    let b ← hexDigit? b
    let c ← hexDigit? c
    let d ← hexDigit? d
    return (((a * 16 + b) * 16 + c) * 16 + d, rest)
  | _ => none

/-! ### Strings -/

/-- The character of an escape, read after its `\u`. A high surrogate takes
    the low one that has to follow it. -/
def unicodeEscape? (cs : List Char) : Option (Char × List Char) := do
  let (unit, rest) ← hexUnit? cs
  if unit < 0xD800 ∨ 0xE000 ≤ unit then
    return (Char.ofNat unit, rest)
  else if unit < 0xDC00 then
    match rest with
    | '\\' :: 'u' :: more =>
      let (low, rest) ← hexUnit? more
      if 0xDC00 ≤ low ∧ low < 0xE000 then
        return (Char.ofNat (0x10000 + (unit - 0xD800) * 0x400 + (low - 0xDC00)), rest)
      else none
    | _ => none
  else none

/-- The character of an escape, read after its backslash. -/
def escape? : List Char → Option (Char × List Char)
  | '"' :: rest => some ('"', rest)
  | '\\' :: rest => some ('\\', rest)
  | '/' :: rest => some ('/', rest)
  | 'b' :: rest => some ('\x08', rest)
  | 'f' :: rest => some ('\x0c', rest)
  | 'n' :: rest => some ('\n', rest)
  | 'r' :: rest => some ('\r', rest)
  | 't' :: rest => some ('\t', rest)
  | 'u' :: rest => unicodeEscape? rest
  | _ => none

/-- The characters of a string, read after its opening quote. -/
def characters? : Nat → List Char → Option (List Char × List Char)
  | 0, _ => none
  | _ + 1, [] => none
  | steps + 1, c :: rest =>
    if c = '"' then some ([], rest)
    else if c = '\\' then do
      let (escaped, rest) ← escape? rest
      let (more, rest) ← characters? steps rest
      return (escaped :: more, rest)
    else if c.toNat < 0x20 then none
    else do
      let (more, rest) ← characters? steps rest
      return (c :: more, rest)

/-! ### Numbers -/

/-- The digits at the start of a text, if there are any. -/
def digits? (cs : List Char) : Option (List Char × List Char) :=
  match cs.takeWhile Char.isDigit with
  | [] => none
  | ds => some (ds, cs.dropWhile Char.isDigit)

/-- The digits before the point: a zero stands alone. -/
def wholeDigits? (cs : List Char) : Option (List Char × List Char) := do
  let (ds, rest) ← digits? cs
  match ds with
  | '0' :: _ :: _ => none
  | _ => return (ds, rest)

/-- The digits after a point; none if there is no point. -/
def fractionDigits? : List Char → Option (List Char × List Char)
  | '.' :: rest => digits? rest
  | cs => some ([], cs)

/-- A signed exponent after its letter. -/
def signedDigits? : List Char → Option (Int × List Char)
  | '+' :: cs => (digits? cs).map fun (ds, rest) => (Nat.ofDigitChars 10 ds 0, rest)
  | '-' :: cs => (digits? cs).map fun (ds, rest) => (-(Nat.ofDigitChars 10 ds 0 : Int), rest)
  | cs => (digits? cs).map fun (ds, rest) => (Nat.ofDigitChars 10 ds 0, rest)

/-- An exponent; `none` inside if there is no exponent. -/
def exponent? : List Char → Option (Option Int × List Char)
  | 'e' :: rest => (signedDigits? rest).map fun (e, rest) => (some e, rest)
  | 'E' :: rest => (signedDigits? rest).map fun (e, rest) => (some e, rest)
  | cs => some (none, cs)

/-- The number of an integer literal: 64-bit integers stay integers, and
    others, with them `-0`, are doubles. -/
def integer? (isNegative : Bool) (n : Nat) : Option Number :=
  if !isNegative && decide (n < Nat.pow 2 64) then some (.natural n)
  else if isNegative && decide (0 < n ∧ n ≤ Nat.pow 2 63) then some (.negative n)
  else (Decimal.toFloat? isNegative ⟨n, 0⟩).map .real

/-- A number without its sign. -/
def unsigned? (isNegative : Bool) (cs : List Char) : Option (Number × List Char) := do
  let (whole, rest) ← wholeDigits? cs
  let (fraction, rest) ← fractionDigits? rest
  let (power, rest) ← exponent? rest
  match fraction, power with
  | [], none => return (← integer? isNegative (Nat.ofDigitChars 10 whole 0), rest)
  | _, _ =>
    let coefficient := Nat.ofDigitChars 10 (whole ++ fraction) 0
    let x ← Decimal.toFloat? isNegative ⟨coefficient, power.getD 0 - fraction.length⟩
    return (.real x, rest)

/-- A number. -/
def number? : List Char → Option (Number × List Char)
  | '-' :: rest => unsigned? true rest
  | cs => unsigned? false cs

/-! ### Values -/

/-- Read a fixed word. -/
def word? (word : List Char) (value : Json) (cs : List Char) : Option (Json × List Char) :=
  if word.isPrefixOf cs then some (value, cs.drop word.length) else none

mutual

/-- A value after any blanks, with at most `limit` containers inside each
    other. -/
def value? : Nat → Nat → List Char → Option (Json × List Char)
  | 0, _, _ => none
  | steps + 1, limit, cs =>
    match skipBlanks cs with
    | 'n' :: rest => word? ['u', 'l', 'l'] .null rest
    | 't' :: rest => word? ['r', 'u', 'e'] (.bool true) rest
    | 'f' :: rest => word? ['a', 'l', 's', 'e'] (.bool false) rest
    | '"' :: rest => do
      let (s, rest) ← characters? steps rest
      return (.str (String.ofList s), rest)
    | '[' :: rest =>
      if limit = 0 then none
      else match skipBlanks rest with
        | ']' :: rest => some (.arr [], rest)
        | _ => do
          let (items, rest) ← items? steps (limit - 1) rest
          return (.arr items, rest)
    | '{' :: rest =>
      if limit = 0 then none
      else match skipBlanks rest with
        | '}' :: rest => some (.obj [], rest)
        | _ => do
          let (members, rest) ← members? steps (limit - 1) rest
          return (.obj members, rest)
    | rest => do
      let (n, rest) ← number? rest
      return (.num n, rest)

/-- One or more items up to the closing bracket. -/
def items? : Nat → Nat → List Char → Option (List Json × List Char)
  | 0, _, _ => none
  | steps + 1, limit, cs => do
    let (item, rest) ← value? steps limit cs
    match skipBlanks rest with
    | ',' :: rest =>
      let (more, rest) ← items? steps limit rest
      return (item :: more, rest)
    | ']' :: rest => return ([item], rest)
    | _ => none

/-- One or more members up to the closing brace. -/
def members? : Nat → Nat → List Char → Option (List (String × Json) × List Char)
  | 0, _, _ => none
  | steps + 1, limit, cs =>
    match skipBlanks cs with
    | '"' :: rest => do
      let (key, rest) ← characters? steps rest
      match skipBlanks rest with
      | ':' :: rest =>
        let (value, rest) ← value? steps limit rest
        match skipBlanks rest with
        | ',' :: rest =>
          let (more, rest) ← members? steps limit rest
          return ((String.ofList key, value) :: more, rest)
        | '}' :: rest => return ([(String.ofList key, value)], rest)
        | _ => none
      | _ => none
    | _ => none

end

/-- The value that some characters are the text of. -/
def ofCharacters? (limit : Nat) (cs : List Char) : Option Json := do
  -- A value takes a step and at least one character, as does every item or member.
  let (value, rest) ← value? (2 * cs.length + 2) limit cs
  match skipBlanks rest with
  | [] => return value
  | _ => none

/-- The value of a text. -/
def read? (limit : Nat) (text : String) : Option Json := ofCharacters? limit text.toList

/-- The codec of compact texts. -/
def Codec.compact : Codec := ⟨text, Json.read? (nestingLimit - 1)⟩

end PlotGrammar.Json
