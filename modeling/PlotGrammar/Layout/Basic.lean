import PlotGrammar.Decimal.Text

/-! # Layouts

  How the children of a node are put side by side. A `Layout` is a directive
  as it is written, whose column count may be any number; a `Composition` has
  a column count that makes sense. `settle` leads from one to the other or
  says what is wrong.
-/

namespace PlotGrammar

/-- A way to compose children. -/
inductive LayoutKind where
  /-- In a shared frame, later children on top. -/
  | layer
  /-- From left to right. -/
  | horizontal
  /-- From top to bottom. -/
  | vertical
  /-- In a grid, row by row. -/
  | wrap
deriving DecidableEq, Repr

/-- The name of a kind of layout. -/
def LayoutKind.name : LayoutKind → String
  | .layer => "layer"
  | .horizontal => "horizontal"
  | .vertical => "vertical"
  | .wrap => "wrap"

/-- A layout directive as written. -/
structure Layout where
  kind : LayoutKind
  /-- The column count, any number. -/
  columns : Option Float
deriving BEq

/-- The directive of a grid with a column count. -/
def Layout.grid (columns : Nat) : Layout := ⟨.wrap, some (Float.ofNat columns)⟩

/-- A layout with its parameters settled. -/
inductive Composition where
  | layer
  | horizontal
  | vertical
  /-- A grid of so many columns. -/
  | wrap (columns : Nat)
deriving DecidableEq, Repr

/-- What can be wrong with a layout directive. -/
inductive LayoutFault where
  /-- The column count is not a whole number from `1` to `2^32 - 1`. -/
  | badColumns (columns : Float)
  /-- Only a grid takes a column count. -/
  | unusedColumns (kind : LayoutKind) (faceted : Bool)
  /-- A grid has no column count, neither its own nor a configured one. -/
  | missingColumns
  /-- A fault in the words of the caller. -/
  | stated (text : String)
deriving DecidableEq

/-- The wording of a fault. -/
def LayoutFault.message : LayoutFault → String
  | .badColumns columns => "wrap columns must be a positive integer, got " ++ displayNumber columns
  | .unusedColumns kind faceted =>
    "'" ++ kind.name ++ "' layout" ++ (if faceted then " over a faceted view" else "")
      ++ " cannot take columns"
  | .missingColumns => "wrap layout requires columns"
  | .stated text => text

/-! ### Settling a directive -/

/-- The largest column count. -/
def maxColumns : Nat := Nat.pow 2 32 - 1

/-- A column count that makes sense. -/
def columnCount? (columns : Float) : Option Nat :=
  let count := Binary64.toCount columns
  if columns.isFinite && Binary64.isWhole columns && decide (1 ≤ count ∧ count ≤ maxColumns) then
    some count
  else none

/-- The column count of a directive, checked. -/
def Layout.checkedColumns (layout : Layout) : Except LayoutFault (Option Nat) :=
  match layout.columns with
  | none => .ok none
  | some columns =>
    match columnCount? columns with
    | some count => .ok (some count)
    | none => .error (.badColumns columns)

/-- Settle the directive of a node. Without one a faceted node goes from left
    to right and any other is layered. A grid takes its own column count or
    else the configured one, if that is positive. -/
def settle (layout : Option Layout) (faceted : Bool) (configured : Option Nat) :
    Except LayoutFault Composition :=
  match layout with
  | none => .ok (if faceted then .horizontal else .layer)
  | some layout => do
    let columns ← layout.checkedColumns
    if columns.isSome && layout.kind != .wrap then
      throw (.unusedColumns layout.kind faceted)
    match layout.kind with
    | .layer => return .layer
    | .horizontal => return .horizontal
    | .vertical => return .vertical
    | .wrap =>
      match columns.or (configured.filter (0 < ·)) with
      | some count => return .wrap count
      | none => throw .missingColumns

end PlotGrammar
