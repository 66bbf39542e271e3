import PlotGrammar.Json.Basic

/-! # Cells

  A cell is a primitive value of a table or a constant of an encoding.

  Cells key groups, so their equality `==` is an equivalence: numbers are
  compared by their bits after `-0.0` is taken as `0.0` and every NaN as the
  same, and cells of different kinds are never equal.
-/

namespace PlotGrammar

/-- A primitive value. -/
inductive Cell where
  /-- A missing value. -/
  | null
  | bool (value : Bool)
  | num (value : Float)
  | text (value : String)
deriving Inhabited

namespace Cell

/-! ### Equality -/

/-- What decides the equality of cells. -/
inductive Key where
  | null
  | bool (value : Bool)
  | num (bits : UInt64)
  | text (value : String)
deriving DecidableEq

/-- The bits that stand for a number in comparisons. -/
def numberBits (x : Float) : UInt64 :=
  if x.isNaN then 0x7FF8000000000000
  else if x == 0.0 then 0
  else x.toBits

/-- The key of a cell. -/
def key : Cell → Key
  | .null => .null
  | .bool b => .bool b
  | .num x => .num (numberBits x)
  | .text s => .text s

instance : BEq Cell := ⟨fun a b => decide (a.key = b.key)⟩

theorem beq_iff_key {a b : Cell} : (a == b) = true ↔ a.key = b.key := by
  simp [BEq.beq]

instance : EquivBEq Cell where
  rfl := beq_iff_key.2 rfl
  symm h := beq_iff_key.2 (beq_iff_key.1 h).symm
  trans h g := beq_iff_key.2 ((beq_iff_key.1 h).trans (beq_iff_key.1 g))

/-! ### Parts -/

/-- The number of a cell. -/
def float? : Cell → Option Float
  | .num x => some x
  | _ => none

/-- The finite number of a cell. -/
def finite? (c : Cell) : Option Float := c.float?.filter Float.isFinite

/-- The string of a cell. -/
def text? : Cell → Option String
  | .text s => some s
  | _ => none

/-- Whether the value is missing. -/
def isNull : Cell → Bool
  | .null => true
  | _ => false

/-! ### Text -/

/-- The text of a cell. -/
def display : Cell → String
  | .null => "null"
  | .bool true => "true"
  | .bool false => "false"
  | .num x => displayNumber x
  | .text s => s

/-- A primitive JSON value as a cell. -/
def ofJson? : Json → Option Cell
  | .null => some .null
  | .bool b => some (.bool b)
  | .num n => some (.num n.toFloat)
  | .str s => some (.text s)
  | .arr _ => none
  | .obj _ => none

/-- The JSON value of a cell. -/
def toJson : Cell → Json
  | .null => .null
  | .bool b => .bool b
  | .num x => Json.ofFloat x
  | .text s => .str s

end Cell

end PlotGrammar
