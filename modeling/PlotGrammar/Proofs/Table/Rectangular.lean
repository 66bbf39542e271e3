import PlotGrammar.Proofs.Pipeline.Histories
import PlotGrammar.Proofs.Table.Reduction
import PlotGrammar.Proofs.Table.Removal
import PlotGrammar.Table.Records

/-! # Rectangular tables

  Every way to make a table gives rows that are aligned to its fields, and
  every operation on such a table keeps them so:

  - columns are filled up with nulls (`rectangular_ofColumns`), and so are
    records (`rectangular_read`),
  - a row that does not fit is refused (`pushRow_eq_ok_iff`),
  - an aggregate makes rows and fields apart from each other, and they fit
    because all group keys are fields of the table (`rectangular_of_aggregated`).

  So the steps of a node keep them, one by one (`rectangular_of_foldlM`).
-/

namespace PlotGrammar

namespace Table

variable {t : Table}

/-! ### Building -/

theorem rectangular_ofFields (fields : List String) : (ofFields fields).Rectangular := by
  intro row hrow
  cases hrow

/-- A row is added exactly if it fits. -/
theorem pushRow_eq_ok_iff {row : List Cell} {t' : Table} :
    t.pushRow row = .ok t' ↔ row.length = t.fields.length ∧ t' = ⟨t.fields, t.rows ++ [row]⟩ := by
  unfold pushRow
  by_cases h : row.length = t.fields.length
  · simp [h, eq_comm]
  · simp [h]

/-- A row that does not fit is refused. -/
theorem pushRow_eq_error {row : List Cell} (h : row.length ≠ t.fields.length) :
    t.pushRow row = .error (.rowLength t.fields.length row.length) :=
  if_neg h

theorem Rectangular.of_pushRow (h : t.Rectangular) {row : List Cell} {t' : Table}
    (hpush : t.pushRow row = .ok t') : t'.Rectangular := by
  obtain ⟨hlength, rfl⟩ := pushRow_eq_ok_iff.1 hpush
  intro other hother
  rcases List.mem_append.1 hother with hold | hnew
  · exact h other hold
  · rw [List.mem_singleton.1 hnew]
    exact hlength

theorem rectangular_ofColumns (columns : List (String × List Cell)) :
    (ofColumns columns).Rectangular := by
  intro row hrow
  obtain ⟨r, -, rfl⟩ := List.mem_map.1 hrow
  simp [ofColumns]

/-- A record has a cell for every field, null where it lacks one. -/
theorem rectangular_ofRecords {records : List Record} (h : ofRecords records = .ok t) :
    t.Rectangular := by
  obtain ⟨rows, hrows, h⟩ := bind_eq_ok_iff.1 h
  cases h
  intro row hrow
  obtain ⟨record, -, hrecord⟩ := exists_of_mem_mapM hrows hrow
  exact (mapM_eq_ok_iff.1 hrecord).length_eq.symm

theorem rectangular_read {codec : Json.Codec} {text : String} (h : read codec text = .ok t) :
    t.Rectangular := by
  unfold read at h
  split at h
  · exact rectangular_ofRecords h
  · cases h

/-! ### Deriving -/

theorem Rectangular.filterEq (h : t.Rectangular) (field : String) (cell : Cell) :
    (t.filterEq field cell).Rectangular := by
  cases hposition : t.fieldIndex? field with
  | none =>
    simp only [Table.filterEq, hposition]
    exact rectangular_ofFields t.fields
  | some position =>
    simp only [Table.filterEq, hposition]
    intro row hrow
    exact h row (List.mem_filter.1 hrow).1

theorem Rectangular.of_binned (h : t.Rectangular) {step : BinStep} {defaultMaxBins : Nat}
    {t' : Table} (hbinned : t.binned step defaultMaxBins = .ok t') : t'.Rectangular := by
  obtain ⟨labels, rfl⟩ := exists_of_binned_eq_ok hbinned
  exact h.withColumn step.out labels

/-- The rows of a reduced table are keys with a result. -/
theorem rectangular_reducedByKey (t : Table) (f : AggregateFunction) (field : Option String)
    (out : String) (groupBy : List String) : (t.reducedByKey f field out groupBy).Rectangular := by
  intro row hrow
  obtain ⟨key, hkey, rfl⟩ := List.mem_map.1 hrow
  simp [reducedByKey, length_of_mem_keys hkey]

/-- An aggregate makes rows of the length of its fields, whatever the rows were
    before, as long as the table has all group keys. -/
theorem rectangular_of_aggregated {step : AggregateStep} {groupBy : List String} {t' : Table}
    (hgroupBy : ∀ name ∈ groupBy, t.hasField name = true)
    (h : t.aggregated step groupBy = .ok t') : t'.Rectangular := by
  obtain ⟨f, input, -, hinput, rfl⟩ := exists_of_aggregated_eq_ok h
  rw [reduced_eq_reducedByKey hgroupBy hinput]
  exact rectangular_reducedByKey t f step.field step.out groupBy

end Table

/-! ### Steps -/

namespace Pipeline

variable {defaultMaxBins : Nat} {dimensions : List String}

/-- One step keeps the rows aligned. -/
theorem rectangular_of_next {s s' : State} {step : Step} (h : s.table.Rectangular)
    (hnext : s.next defaultMaxBins dimensions step = .ok s') : s'.table.Rectangular := by
  cases step with
  | bin step =>
    obtain ⟨table, htable, hnext⟩ := bind_eq_ok_iff.1 hnext
    cases hnext
    exact h.of_binned htable
  | aggregate step =>
    obtain ⟨table, htable, hnext⟩ := bind_eq_ok_iff.1 hnext
    cases hnext
    exact Table.rectangular_of_aggregated (fun _ hmem => hasField_of_mem_inferredGroupBy hmem) htable

/-- So do the steps of a run, as far as it comes. -/
theorem rectangular_of_foldlM {t : Table} {steps : List Step} {s : State} (h : t.Rectangular)
    (hrun : steps.foldlM (State.next defaultMaxBins dimensions) (State.initial t) = .ok s) :
    s.table.Rectangular :=
  holds_of_foldlM (P := fun s => s.table.Rectangular)
    (fun _ _ _ _ hs hnext => rectangular_of_next hs hnext) h hrun

end Pipeline

end PlotGrammar
