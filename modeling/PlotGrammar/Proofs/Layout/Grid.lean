import Mathlib.Data.List.Basic
import PlotGrammar.Layout.Plan

/-! # The grid of a composition

  A composition puts its children into a grid. The children of a layer share
  the one place that there is, in drawing order; those of any other composition
  fill the grid row by row (`IsFilled`), whose rows and columns are as many as
  the children need. A grid with a column count is only as wide as there are
  children, while a place goes by the column count; both say the same, because
  fewer children than columns are all in the first row.
-/

namespace PlotGrammar

namespace Composition

/-- A composition that can place children: a grid has a column. -/
def HasColumns (composition : Composition) : Prop :=
  ∀ columns, composition = .wrap columns → 0 < columns

/-! ### Places -/

/-- A child is at its own position. -/
@[simp] theorem index_place (composition : Composition) (i : Nat) :
    (composition.place i).index = i := by
  cases composition <;> rfl

/-- A grid is the grid of the composition that it was made for. -/
@[simp] theorem composition_grid (composition : Composition) (count : Nat) :
    (composition.grid count).composition = composition := by
  cases composition <;> rfl

theorem rows_pos (composition : Composition) (count : Nat) :
    0 < (composition.grid count).rows := by
  cases composition <;> simp only [grid] <;> omega

theorem columns_pos {composition : Composition} (h : composition.HasColumns) (count : Nat) :
    0 < (composition.grid count).columns := by
  cases composition with
  | layer => exact Nat.one_pos
  | horizontal =>
    show 0 < max count 1
    omega
  | vertical => exact Nat.one_pos
  | wrap columns =>
    have hpos := h columns rfl
    show 0 < min columns (max count 1)
    omega

section

variable {composition : Composition} (h : composition.HasColumns) {index count : Nat}
  (hindex : index < count)
include h hindex

/-- The place of a child is in the grid. -/
theorem place_inside : (composition.place index).row < (composition.grid count).rows ∧
    (composition.place index).column < (composition.grid count).columns := by
  cases composition with
  | layer => exact ⟨Nat.one_pos, Nat.one_pos⟩
  | horizontal =>
    show 0 < 1 ∧ index < max count 1
    omega
  | vertical =>
    show index < max count 1 ∧ 0 < 1
    omega
  | wrap columns =>
    have hpos := h columns rfl
    show index / columns < max ((count + columns - 1) / columns) 1 ∧
      index % columns < min columns (max count 1)
    have hrow : index / columns < (count + columns - 1) / columns := by
      rw [Nat.lt_div_iff_mul_lt hpos, Nat.mul_comm]
      have hmul := Nat.mul_div_le index columns
      omega
    have hcolumn := Nat.mod_lt index hpos
    have hle := Nat.mod_le index columns
    omega

/-- Outside of a layer the grid is filled row by row. -/
theorem index_eq_row_mul_add_column (hlayer : composition ≠ .layer) :
    index = (composition.place index).row * (composition.grid count).columns +
      (composition.place index).column := by
  cases composition with
  | layer => exact absurd rfl hlayer
  | horizontal =>
    show index = 0 * max count 1 + index
    omega
  | vertical =>
    show index = index * 1 + 0
    omega
  | wrap columns =>
    show index = index / columns * min columns (max count 1) + index % columns
    have hdiv := Nat.div_add_mod' index columns
    by_cases hfew : count < columns
    · -- All children are in the first row, whatever its width.
      have hlt : index < columns := by omega
      rw [Nat.div_eq_of_lt hlt, Nat.mod_eq_of_lt hlt]
      omega
    · rw [show min columns (max count 1) = columns from by omega]
      exact hdiv.symm

end

/-! ### No empty rows and columns -/

section

variable {composition : Composition} (h : composition.HasColumns) {count : Nat} (hcount : 0 < count)
include hcount

/-- Every row has a child, its first place. -/
theorem exists_place_row {row : Nat} (hrow : row < (composition.grid count).rows) :
    ∃ index < count, (composition.place index).row = row := by
  cases composition with
  | layer => exact ⟨0, hcount, (Nat.lt_one_iff.1 hrow).symm⟩
  | horizontal => exact ⟨0, hcount, (Nat.lt_one_iff.1 hrow).symm⟩
  | vertical =>
    have hlt : row < max count 1 := hrow
    exact ⟨row, by omega, rfl⟩
  | wrap columns =>
    have hlt : row < max ((count + columns - 1) / columns) 1 := hrow
    by_cases hfirst : row = 0
    · exact ⟨0, hcount, by rw [hfirst]; exact Nat.zero_div columns⟩
    · have hpos : 0 < columns := by
        by_contra hzero
        rw [Nat.eq_zero_of_not_pos hzero, Nat.div_zero] at hlt
        omega
      have hdiv : row < (count + columns - 1) / columns := by omega
      rw [Nat.lt_div_iff_mul_lt hpos] at hdiv
      exact ⟨row * columns, by omega, Nat.mul_div_cancel row hpos⟩

include h in
/-- Every column has a child, in the first row. -/
theorem exists_place_column {column : Nat} (hcolumn : column < (composition.grid count).columns) :
    ∃ index < count, (composition.place index).column = column := by
  cases composition with
  | layer => exact ⟨0, hcount, (Nat.lt_one_iff.1 hcolumn).symm⟩
  | horizontal =>
    have hlt : column < max count 1 := hcolumn
    exact ⟨column, by omega, rfl⟩
  | vertical => exact ⟨0, hcount, (Nat.lt_one_iff.1 hcolumn).symm⟩
  | wrap columns =>
    have hlt : column < min columns (max count 1) := hcolumn
    exact ⟨column, by omega, Nat.mod_eq_of_lt (by omega)⟩

end

end Composition

/-! ### Filled grids -/

/-- A grid and the places of so many children in it. -/
structure IsFilled (composition : Composition) (count : Nat) (grid : Arrangement)
    (places : List Placement) : Prop where
  /-- Places are found without a division by zero. -/
  columns_ne_zero : ∀ columns, composition = .wrap columns → columns ≠ 0
  /-- There is a place for every child, in order. -/
  map_index : places.map Placement.index = List.range count
  rows_pos : 1 ≤ grid.rows
  columns_pos : 1 ≤ grid.columns
  inside : ∀ place ∈ places, place.row < grid.rows ∧ place.column < grid.columns
  /-- In a layer all children share one place and are drawn in order. -/
  layered : composition = .layer → grid.rows = 1 ∧ grid.columns = 1 ∧
    ∀ place ∈ places, place.row = 0 ∧ place.column = 0 ∧ place.layer = place.index
  /-- Anything else goes row by row. -/
  rowByRow : composition ≠ .layer → ∀ place ∈ places, place.layer = 0 ∧
    place.index = place.row * grid.columns + place.column
  /-- No two children share a place, except in a layer. -/
  apart : composition ≠ .layer → ∀ place ∈ places, ∀ other ∈ places, place.row = other.row →
    place.column = other.column → place = other
  row_ne_empty : 1 ≤ count → ∀ row < grid.rows, ∃ place ∈ places, place.row = row
  column_ne_empty : 1 ≤ count → ∀ column < grid.columns, ∃ place ∈ places, place.column = column

theorem mem_plan {composition : Composition} {count : Nat} {place : Placement} :
    place ∈ (plan composition count).2 ↔ ∃ index < count, composition.place index = place := by
  simp [plan]

/-- Children that can be placed fill the grid. -/
theorem isFilled_plan {composition : Composition} (h : composition.HasColumns) (count : Nat) :
    IsFilled composition count (plan composition count).1 (plan composition count).2 := by
  have hindex : composition ≠ .layer → ∀ place ∈ (plan composition count).2,
      place.index = place.row * (composition.grid count).columns + place.column := by
    intro hlayer place hplace
    obtain ⟨index, hindex, rfl⟩ := mem_plan.1 hplace
    rw [Composition.index_place]
    exact Composition.index_eq_row_mul_add_column h hindex hlayer
  constructor
  case columns_ne_zero =>
    intro columns hcolumns
    exact Nat.ne_of_gt (h columns hcolumns)
  case map_index =>
    show ((List.range count).map composition.place).map Placement.index = List.range count
    rw [List.map_map]
    exact (List.map_congr_left fun index _ => composition.index_place index).trans (List.map_id _)
  case rows_pos => exact composition.rows_pos count
  case columns_pos => exact Composition.columns_pos h count
  case inside =>
    intro place hplace
    obtain ⟨index, hindex, rfl⟩ := mem_plan.1 hplace
    exact Composition.place_inside h hindex
  case layered =>
    intro hlayer
    subst hlayer
    refine ⟨rfl, rfl, ?_⟩
    intro place hplace
    obtain ⟨index, -, rfl⟩ := mem_plan.1 hplace
    exact ⟨rfl, rfl, rfl⟩
  case rowByRow =>
    intro hlayer place hplace
    refine ⟨?_, hindex hlayer place hplace⟩
    obtain ⟨index, -, rfl⟩ := mem_plan.1 hplace
    cases composition with
    | layer => exact absurd rfl hlayer
    | horizontal => rfl
    | vertical => rfl
    | wrap columns => rfl
  case apart =>
    intro hlayer place hplace other hother hrow hcolumn
    -- Row and column determine the position, and that the place.
    have heq : place.index = other.index := by
      rw [hindex hlayer place hplace, hindex hlayer other hother, hrow, hcolumn]
    obtain ⟨i, -, rfl⟩ := mem_plan.1 hplace
    obtain ⟨j, -, rfl⟩ := mem_plan.1 hother
    rw [Composition.index_place, Composition.index_place] at heq
    rw [heq]
  case row_ne_empty =>
    intro hcount row hrow
    obtain ⟨index, hindex, hplace⟩ := Composition.exists_place_row hcount hrow
    exact ⟨composition.place index, mem_plan.2 ⟨index, hindex, rfl⟩, hplace⟩
  case column_ne_empty =>
    intro hcount column hcolumn
    obtain ⟨index, hindex, hplace⟩ := Composition.exists_place_column h hcount hcolumn
    exact ⟨composition.place index, mem_plan.2 ⟨index, hindex, rfl⟩, hplace⟩

end PlotGrammar
