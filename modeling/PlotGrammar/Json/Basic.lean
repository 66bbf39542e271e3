import PlotGrammar.Decimal.Text

/-! # JSON values

  Objects keep their members in order and with repetitions, since readers of
  strict formats have to see a repeated key. Integers of 64 bits are kept
  apart from doubles, since some places accept only integers.
-/

namespace PlotGrammar

namespace Json

/-- A number of a JSON text. -/
inductive Number where
  /-- An integer from `0` to `2^64 - 1`. -/
  | natural (n : Nat)
  /-- The integer `-n`, down to `-2^63`. -/
  | negative (n : Nat)
  /-- Any other number. -/
  | real (x : Float)

/-- The number as a double. -/
def Number.toFloat : Number → Float
  | .natural n => Float.ofNat n
  | .negative n => -Float.ofNat n
  | .real x => x

end Json

/-- A JSON value. -/
inductive Json where
  | null
  | bool (value : Bool)
  | num (value : Json.Number)
  | str (value : String)
  | arr (items : List Json)
  | obj (members : List (String × Json))

namespace Json

/-- An integer. -/
def ofNat (n : Nat) : Json := .num (.natural n)

/-- A double, finite or not. -/
def ofFloat (x : Float) : Json := .num (.real x)

/-- The double that a number stands for. -/
def float? : Json → Option Float
  | .num n => some n.toFloat
  | _ => none

/-- The text of a string value. -/
def str? : Json → Option String
  | .str s => some s
  | _ => none

/-- The integer of a number that is written as one. -/
def nat? : Json → Option Nat
  | .num (.natural n) => some n
  | _ => none

/-! ### Nesting -/

mutual

/-- How many arrays and objects stand inside each other. -/
def depth : Json → Nat
  | .arr items => depthOfItems items + 1
  | .obj members => depthOfMembers members + 1
  | _ => 0

/-- The deepest of a list of values. -/
def depthOfItems : List Json → Nat
  | [] => 0
  | item :: rest => max item.depth (depthOfItems rest)

/-- The deepest of a list of members. -/
def depthOfMembers : List (String × Json) → Nat
  | [] => 0
  | (_, value) :: rest => max value.depth (depthOfMembers rest)

end

end Json

end PlotGrammar
