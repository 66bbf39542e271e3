import PlotGrammar.Layout.Basic

/-! # Placing children

  `plan composition count` gives every child a place in a grid. The grid is
  filled row by row, and only as wide as there are children; in a layer all
  children share one place and are drawn in order.
-/

namespace PlotGrammar

/-- The place of a child in the grid of its parent. -/
structure Placement where
  /-- The position among the children. -/
  index : Nat
  /-- The row, from the top. -/
  row : Nat
  /-- The column, from the left. -/
  column : Nat
  /-- The drawing order in a shared frame. -/
  layer : Nat
deriving DecidableEq, Repr

/-- The grid that a composition makes. -/
structure Arrangement where
  composition : Composition
  rows : Nat
  columns : Nat
deriving DecidableEq, Repr

/-- A rectangle inside the parent, in parts of its width and height. -/
structure Rectangle where
  x : Float
  y : Float
  width : Float
  height : Float

/-- The rectangle of a place. -/
def Arrangement.rectangle (grid : Arrangement) (place : Placement) : Rectangle :=
  let rows := Float.ofNat (max grid.rows 1)
  let columns := Float.ofNat (max grid.columns 1)
  { x := Float.ofNat place.column / columns
    y := Float.ofNat place.row / rows
    width := 1.0 / columns
    height := 1.0 / rows }

/-- The place of the child at a position. -/
def Composition.place (composition : Composition) (index : Nat) : Placement :=
  match composition with
  | .layer => ⟨index, 0, 0, index⟩
  | .horizontal => ⟨index, 0, index, 0⟩
  | .vertical => ⟨index, index, 0, 0⟩
  | .wrap columns => ⟨index, index / columns, index % columns, 0⟩

/-- The grid of so many children. -/
def Composition.grid (composition : Composition) (count : Nat) : Arrangement :=
  match composition with
  | .layer => ⟨composition, 1, 1⟩
  | .horizontal => ⟨composition, 1, max count 1⟩
  | .vertical => ⟨composition, max count 1, 1⟩
  | .wrap columns => ⟨composition, max ((count + columns - 1) / columns) 1, min columns (max count 1)⟩

/-- The grid and the places of so many children. -/
def plan (composition : Composition) (count : Nat) : Arrangement × List Placement :=
  (composition.grid count, (List.range count).map composition.place)

end PlotGrammar
