import PlotGrammar.Json.Basic

/-! # Writing JSON

  The compact text of a value: no blanks, members in their order, and the
  fewest characters escaped.
-/

namespace PlotGrammar.Json

/-- Numbers in JSON: the fewest digits, always with a fraction or an exponent,
    and an exponent outside of `1e-5 ≤ x < 1e16`. -/
def numberStyle : NumberStyle := ⟨.toEven, true, some (-4, 16)⟩

/-- The text of a number. -/
def Number.text : Number → List Char
  | .natural n => Nat.toDigits 10 n
  | .negative n => '-' :: Nat.toDigits 10 n
  | .real x => if x.isFinite then numberStyle.finite x else ['n', 'u', 'l', 'l']

/-- A character inside a string. Control characters have a short escape or
    four hexadecimal digits. -/
def escaped (c : Char) : List Char :=
  if c = '"' then ['\\', '"']
  else if c = '\\' then ['\\', '\\']
  else if c = '\x08' then ['\\', 'b']
  else if c = '\x0c' then ['\\', 'f']
  else if c = '\n' then ['\\', 'n']
  else if c = '\r' then ['\\', 'r']
  else if c = '\t' then ['\\', 't']
  else if c.toNat < 0x20 then
    ['\\', 'u', '0', '0', Nat.digitChar (c.toNat / 16), Nat.digitChar (c.toNat % 16)]
  else [c]

/-- A string in its quotes. -/
def quoted (s : String) : List Char := '"' :: s.toList.flatMap escaped ++ ['"']

mutual

/-- The characters of a value. -/
def characters : Json → List Char
  | .null => ['n', 'u', 'l', 'l']
  | .bool true => ['t', 'r', 'u', 'e']
  | .bool false => ['f', 'a', 'l', 's', 'e']
  | .num n => n.text
  | .str s => quoted s
  | .arr items => '[' :: itemCharacters items ++ [']']
  | .obj members => '{' :: memberCharacters members ++ ['}']

/-- The items of an array, with commas between them. -/
def itemCharacters : List Json → List Char
  | [] => []
  | [item] => item.characters
  | item :: rest => item.characters ++ ',' :: itemCharacters rest

/-- The members of an object, with commas between them. -/
def memberCharacters : List (String × Json) → List Char
  | [] => []
  | [(key, value)] => quoted key ++ ':' :: value.characters
  | (key, value) :: rest => quoted key ++ ':' :: value.characters ++ ',' :: memberCharacters rest

end

/-- The text of a value. -/
def text (value : Json) : String := String.ofList value.characters

end PlotGrammar.Json
