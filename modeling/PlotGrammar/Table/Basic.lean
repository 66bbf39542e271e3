import PlotGrammar.Cell
import PlotGrammar.Failure

/-! # Tables

  A table is a list of field names and rows that are aligned to it. Fields are
  found by name; of repeated names the first counts. `Rectangular` says that
  every row has a cell for every field, which all operations keep.
-/

namespace PlotGrammar

/-- Rows of cells under named fields. -/
structure Table where
  fields : List String
  rows : List (List Cell)

namespace Table

/-- Every row has as many cells as there are fields. -/
def Rectangular (t : Table) : Prop := ∀ row ∈ t.rows, row.length = t.fields.length

/-- The cell of a row at a position. -/
def cellAt (row : List Cell) (position : Nat) : Cell := row.getD position .null

/-! ### Building -/

/-- A table without rows. -/
def ofFields (fields : List String) : Table := ⟨fields, []⟩

/-- Add a row at the end, if it fits. -/
def pushRow (t : Table) (row : List Cell) : Except Failure Table :=
  if row.length = t.fields.length then .ok ⟨t.fields, t.rows ++ [row]⟩
  else .error (.rowLength t.fields.length row.length)

/-- A table of named columns; shorter ones are filled up with nulls. -/
def ofColumns (columns : List (String × List Cell)) : Table :=
  let height := columns.foldl (fun n column => max n column.2.length) 0
  ⟨columns.map Prod.fst,
    (List.range height).map fun r => columns.map fun column => cellAt column.2 r⟩

/-! ### Looking up -/

/-- The position of a field. -/
def fieldIndex? (t : Table) (name : String) : Option Nat := t.fields.findIdx? (· == name)

/-- Whether the table has a field. -/
def hasField (t : Table) (name : String) : Bool := (t.fieldIndex? name).isSome

/-- The number of rows. -/
def height (t : Table) : Nat := t.rows.length

/-- The number of fields. -/
def width (t : Table) : Nat := t.fields.length

/-- The cell of a row under a field. -/
def value? (t : Table) (row : Nat) (field : String) : Option Cell := do
  let position ← t.fieldIndex? field
  let cells ← t.rows[row]?
  cells[position]?

/-- The cells under a field. -/
def column? (t : Table) (field : String) : Option (List Cell) :=
  (t.fieldIndex? field).map fun position => t.rows.map (cellAt · position)

/-- The different cells under a field, in order of first appearance. -/
def distinct? (t : Table) (field : String) : Option (List Cell) :=
  (t.column? field).map List.eraseDups

/-! ### Deriving -/

/-- The rows whose cell under a field is equal to a cell; no rows if the field
    is missing. -/
def filterEq (t : Table) (field : String) (cell : Cell) : Table :=
  match t.fieldIndex? field with
  | none => ofFields t.fields
  | some position => ⟨t.fields, t.rows.filter fun row => cellAt row position == cell⟩

/-- As many cells as wanted, filled up with nulls. -/
def resized (cells : List Cell) (count : Nat) : List Cell :=
  cells.take count ++ List.replicate (count - cells.length) .null

/-- Set a field in every row, a new one at the end. Missing cells are null and
    surplus ones are dropped. -/
def withColumn (t : Table) (name : String) (cells : List Cell) : Table :=
  -- Under a new name the cell is at the end, where the new field is.
  let column := resized cells t.height
  match t.fieldIndex? name with
  | some position => ⟨t.fields, t.rows.zipWith (fun row cell => row.set position cell) column⟩
  | none => ⟨t.fields ++ [name], t.rows.zipWith (fun row cell => row ++ [cell]) column⟩

end Table

end PlotGrammar
