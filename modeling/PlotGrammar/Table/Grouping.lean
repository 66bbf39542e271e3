import PlotGrammar.Table.Basic

/-! # Grouping rows

  Elements are put into classes by a key. A class opens when its key first
  appears, keeps that first key, and collects its members in order.
-/

namespace PlotGrammar

/-- Classes of elements with their keys, in order of first appearance. -/
abbrev Classes (κ α : Type) := List (κ × List α)

namespace Classes

variable {κ α : Type}

/-- Add an element to the class of its key, or open a class at the end. -/
def insert [BEq κ] (key : κ) (a : α) : Classes κ α → Classes κ α
  | [] => [(key, [a])]
  | (other, members) :: rest =>
    if other == key then (other, members ++ [a]) :: rest
    else (other, members) :: insert key a rest

/-- The classes of a list, in one pass. -/
def ofList [BEq κ] (key : α → κ) (elements : List α) : Classes κ α :=
  elements.foldl (fun classes a => insert (key a) a classes) []

end Classes

namespace Table

/-- The cells of a row at some positions. -/
def keyAt (positions : List Nat) (row : List Cell) : List Cell := positions.map (cellAt row)

/-- The rows, with their numbers, classed by their cells at some positions.
    Without any position there is always one class, even of no rows. -/
def classes (t : Table) (positions : List Nat) : Classes (List Cell) (List Cell × Nat) :=
  -- The reduction of a whole table has a row, whatever the table holds.
  let found := Classes.ofList (fun row => keyAt positions row.1) t.rows.zipIdx
  if found.isEmpty && positions.isEmpty then [([], [])] else found

end Table

end PlotGrammar
