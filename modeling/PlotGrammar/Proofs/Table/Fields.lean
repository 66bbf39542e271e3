import PlotGrammar.Pipeline
import PlotGrammar.Proofs.Lists

/-! # The fields of derived tables

  Which fields a table has after a step, and that no step empties a table.
  None of these facts looks into a cell:

  - a column that is written is there afterwards, next to all others
    (`hasField_withColumn`),
  - a reduced table has the group keys and the result, nothing else
    (`fields_reduced`),
  - a table with rows still has rows (`rows_withColumn_ne_nil`,
    `rows_reduced_ne_nil`, `rows_filterEq_ne_nil`).
-/

namespace PlotGrammar

namespace Table

/-! ### Looking up -/

/-- A table has a field exactly if it is listed. -/
theorem hasField_iff_mem {t : Table} {name : String} :
    t.hasField name = true ↔ name ∈ t.fields := by
  rw [hasField, fieldIndex?, List.findIdx?_isSome, List.any_eq_true]
  constructor
  · intro ⟨other, hmem, heq⟩
    rw [← beq_iff_eq.1 heq]
    exact hmem
  · intro hmem
    exact ⟨name, hmem, beq_self_eq_true name⟩

/-- A field that a table has stands somewhere. -/
theorem hasField_iff_exists {t : Table} {name : String} :
    t.hasField name = true ↔ ∃ position, t.fieldIndex? name = some position := by
  rw [hasField, Option.isSome_iff_exists]

/-- Positions of fields depend on the list of fields only. -/
theorem fieldIndex?_congr {t t' : Table} (h : t.fields = t'.fields) (name : String) :
    t.fieldIndex? name = t'.fieldIndex? name := by
  rw [fieldIndex?, fieldIndex?, h]

/-- Whether there is a field depends on the list of fields only. -/
theorem hasField_congr {t t' : Table} (h : t.fields = t'.fields) (name : String) :
    t.hasField name = t'.hasField name := by
  rw [hasField, hasField, fieldIndex?_congr h]

/-- There are cells under a field exactly if the table has it. -/
theorem column?_eq_none_iff {t : Table} {name : String} :
    t.column? name = none ↔ t.hasField name = false := by
  rw [column?, Option.map_eq_none_iff, hasField, Option.isSome_eq_false_iff,
    Option.isNone_iff_eq_none]

/-! ### Writing a column -/

@[simp] theorem length_resized (cells : List Cell) (count : Nat) :
    (resized cells count).length = count := by
  simp only [resized, List.length_append, List.length_take, List.length_replicate]
  omega

/-- A new name goes to the end of the list of fields. -/
theorem fields_withColumn (t : Table) (name : String) (cells : List Cell) :
    (t.withColumn name cells).fields =
      if t.hasField name then t.fields else t.fields ++ [name] := by
  cases h : t.fieldIndex? name with
  | none => simp [withColumn, hasField, h]
  | some position => simp [withColumn, hasField, h]

/-- After writing a column there is its field and all that was there. -/
theorem hasField_withColumn {t : Table} {name field : String} {cells : List Cell} :
    (t.withColumn name cells).hasField field = true ↔ field = name ∨ t.hasField field = true := by
  rw [hasField_iff_mem, hasField_iff_mem, fields_withColumn]
  by_cases h : t.hasField name = true
  · rw [if_pos h]
    constructor
    · exact Or.inr
    · intro hmem
      rcases hmem with heq | hmem
      · rw [heq]
        exact hasField_iff_mem.1 h
      · exact hmem
  · rw [if_neg h, List.mem_append, List.mem_singleton, or_comm]

/-- Writing a column keeps the number of rows. -/
@[simp] theorem height_withColumn (t : Table) (name : String) (cells : List Cell) :
    (t.withColumn name cells).height = t.height := by
  cases h : t.fieldIndex? name with
  | none => simp [withColumn, height, h]
  | some position => simp [withColumn, height, h]

theorem rows_withColumn_ne_nil {t : Table} (h : t.rows ≠ []) (name : String) (cells : List Cell) :
    (t.withColumn name cells).rows ≠ [] := by
  have hheight := height_withColumn t name cells
  rw [height, height] at hheight
  intro hnil
  rw [hnil, List.length_nil] at hheight
  exact h (List.length_eq_zero_iff.1 hheight.symm)

/-- A bin step fails if its field is missing, and is aborted if the buckets of
    its cells cannot be computed; else it writes some labels under its output. -/
theorem binned_cases (t : Table) (step : BinStep) (defaultMaxBins : Nat) :
    (t.hasField step.field = false ∧
      t.binned step defaultMaxBins = .error (.unknownField .root step.field)) ∨
    t.hasField step.field = true ∧
      ((∃ cells cause, Binning.fit cells step.width (step.mostBins defaultMaxBins) = .error cause ∧
        t.binned step defaultMaxBins = .error (.aborted .root cause)) ∨
      ∃ labels, t.binned step defaultMaxBins = .ok (t.withColumn step.out labels)) := by
  unfold binned
  cases hcolumn : t.column? step.field with
  | none => exact .inl ⟨column?_eq_none_iff.1 hcolumn, rfl⟩
  | some column =>
    have hfield : t.hasField step.field = true := by
      rw [← Bool.not_eq_false]
      intro hmissing
      rw [column?_eq_none_iff.2 hmissing] at hcolumn
      cases hcolumn
    refine .inr ⟨hfield, ?_⟩
    dsimp only
    cases hfit : Binning.fit column step.width (step.mostBins defaultMaxBins) with
    | error cause => exact .inl ⟨column, cause, hfit, rfl⟩
    | ok fitted =>
      cases fitted with
      | none => exact .inr ⟨_, rfl⟩
      | some b => exact .inr ⟨_, rfl⟩

theorem exists_of_binned_eq_ok {t t' : Table} {step : BinStep} {defaultMaxBins : Nat}
    (h : t.binned step defaultMaxBins = .ok t') : ∃ labels, t' = t.withColumn step.out labels := by
  rcases binned_cases t step defaultMaxBins with
    ⟨-, hunknown⟩ | ⟨-, ⟨cells, cause, -, haborted⟩ | ⟨labels, hbinned⟩⟩
  · rw [hunknown] at h
    cases h
  · rw [haborted] at h
    cases h
  · rw [hbinned] at h
    exact ⟨labels, (Except.ok.inj h).symm⟩

/-! ### Reducing groups -/

/-- A reduced table has the group keys and the result. -/
@[simp] theorem fields_reduced (t : Table) (f : AggregateFunction) (input : Option Nat)
    (out : String) (groupBy : List String) : (t.reduced f input out groupBy).fields = groupBy ++ [out] := rfl

/-- An aggregate that succeeds has reduced the table. -/
theorem exists_of_aggregated_eq_ok {t t' : Table} {step : AggregateStep} {groupBy : List String}
    (h : t.aggregated step groupBy = .ok t') :
    ∃ f input, AggregateFunction.ofName? step.function = some f ∧ t.inputIndex? step = .ok input ∧
      t' = t.reduced f input step.out groupBy := by
  unfold aggregated at h
  split at h
  · cases h
  · next f hf =>
    cases hinput : t.inputIndex? step with
    | error e => rw [hinput] at h; cases h
    | ok input =>
      rw [hinput] at h
      cases h
      exact ⟨f, input, hf, rfl, rfl⟩

end Table

/-! ### Classes -/

namespace Classes

variable {κ α : Type} [BEq κ]

theorem insert_ne_nil (key : κ) (a : α) (classes : Classes κ α) : insert key a classes ≠ [] := by
  cases classes with
  | nil => simp [insert]
  | cons c rest =>
    obtain ⟨other, members⟩ := c
    unfold insert
    split <;> simp

/-- A list with elements has classes. -/
theorem ofList_ne_nil (key : α → κ) {elements : List α} (h : elements ≠ []) :
    ofList key elements ≠ [] := by
  -- The last element went into a class, whatever was there before.
  rcases List.eq_nil_or_concat' elements with rfl | ⟨front, last, rfl⟩
  · exact absurd rfl h
  · rw [ofList, List.foldl_append]
    exact insert_ne_nil _ _ _

end Classes

namespace Table

/-- A table with rows has classes of rows. -/
theorem classes_ne_nil {t : Table} (h : t.rows ≠ []) (positions : List Nat) :
    t.classes positions ≠ [] := by
  -- The class that stands in for no rows is not needed here.
  have hrows : t.rows.zipIdx ≠ [] := by simpa using h
  have hfound := Classes.ofList_ne_nil (fun row => keyAt positions row.1) hrows
  simp only [classes]
  split
  · exact List.cons_ne_nil _ _
  · exact hfound

theorem rows_reduced_ne_nil {t : Table} (h : t.rows ≠ []) (f : AggregateFunction)
    (input : Option Nat) (out : String) (groupBy : List String) :
    (t.reduced f input out groupBy).rows ≠ [] := by
  unfold reduced
  simpa using classes_ne_nil h _

/-! ### Panels -/

@[simp] theorem fields_filterEq (t : Table) (field : String) (cell : Cell) :
    (t.filterEq field cell).fields = t.fields := by
  cases h : t.fieldIndex? field with
  | none => simp [filterEq, ofFields, h]
  | some position => simp [filterEq, h]

@[simp] theorem hasField_filterEq (t : Table) (field : String) (cell : Cell) (name : String) :
    (t.filterEq field cell).hasField name = t.hasField name :=
  hasField_congr (fields_filterEq t field cell) name

/-- A table has different cells under a field exactly if it has the field. -/
theorem distinct?_eq_none_iff {t : Table} {field : String} :
    t.distinct? field = none ↔ t.hasField field = false := by
  rw [distinct?, Option.map_eq_none_iff, column?_eq_none_iff]

/-- There are different cells under a field of a table with rows. -/
theorem distinct?_ne_nil {t : Table} (h : t.rows ≠ []) {field : String} {cells : List Cell}
    (hcells : t.distinct? field = some cells) : cells ≠ [] := by
  rw [distinct?, Option.map_eq_some_iff] at hcells
  obtain ⟨column, hcolumn, rfl⟩ := hcells
  rw [column?, Option.map_eq_some_iff] at hcolumn
  obtain ⟨position, -, rfl⟩ := hcolumn
  apply eraseDups_ne_nil
  simpa using h

/-- The panel of a cell has the row that the cell is from. -/
theorem rows_filterEq_ne_nil {t : Table} {field : String} {cells : List Cell}
    (hcells : t.distinct? field = some cells) {cell : Cell} (hcell : cell ∈ cells) :
    (t.filterEq field cell).rows ≠ [] := by
  rw [distinct?, Option.map_eq_some_iff] at hcells
  obtain ⟨column, hcolumn, rfl⟩ := hcells
  rw [column?, Option.map_eq_some_iff] at hcolumn
  obtain ⟨position, hposition, rfl⟩ := hcolumn
  -- Equality of cells is reflexive, so the row passes its own test.
  obtain ⟨row, hrow, hat⟩ := List.mem_map.1 (mem_of_mem_eraseDups hcell)
  simp only [filterEq, hposition]
  apply List.ne_nil_of_mem
  exact List.mem_filter.2 ⟨hrow, by rw [hat]; exact BEq.rfl⟩

end Table

end PlotGrammar
