import PlotGrammar.Proofs.Table.Fields
import PlotGrammar.Resolution

/-! # Taking a field away from a table

  `t.without u` is a table without a field and its cells. What looks at other
  fields only does not see the difference:

  - other fields are found, though at another position, and have the same cells
    (`fieldIndex?_without`, `cellAt_without`, `column?_without`),
  - writing another column and picking the rows of a panel commute with it
    (`withColumn_without`, `filterEq_without`),
  - rows fall into the same classes, and a reduced table is the same
    (`classes_without`, `reduced_without`).

  A new column goes to the end of every row, so a row has to be long enough to
  hold a cell under the field in the first place: `Covers` says that it is.
-/

namespace PlotGrammar

namespace Table

/-! ### Removing -/

/-- The position that a position moves to when a field is taken away. -/
def positionWithout (t : Table) (u : String) (position : Nat) : Nat :=
  match t.fieldIndex? u with
  | some removed => if removed < position then position - 1 else position
  | none => position

/-- A row of the table without its cell under a field. -/
def rowWithout (t : Table) (u : String) (row : List Cell) : List Cell :=
  match t.fieldIndex? u with
  | some removed => row.eraseIdx removed
  | none => row

/-- The table without a field; the same table if it does not have it. -/
def without (t : Table) (u : String) : Table := ⟨t.fields.erase u, t.rows.map (t.rowWithout u)⟩

/-- Every row has a cell under a field, if there is the field. -/
def Covers (t : Table) (u : String) : Prop :=
  ∀ position, t.fieldIndex? u = some position → ∀ row ∈ t.rows, position < row.length

variable {t : Table} {u name : String}

theorem fieldIndex?_eq_none_iff : t.fieldIndex? name = none ↔ name ∉ t.fields := by
  rw [← hasField_iff_mem, hasField, Bool.not_eq_true, Option.isSome_eq_false_iff,
    Option.isNone_iff_eq_none]

/-- A field stands at its position. -/
theorem getElem?_of_fieldIndex? {position : Nat} (h : t.fieldIndex? name = some position) :
    t.fields[position]? = some name := by
  obtain ⟨hlt, hat, -⟩ := List.findIdx?_eq_some_iff_getElem.1 h
  rw [List.getElem?_eq_getElem hlt, beq_iff_eq.1 hat]

/-- A table that does not have the field stays as it is. -/
theorem without_of_not_mem (h : u ∉ t.fields) : t.without u = t := by
  have hrow : t.rowWithout u = id := by
    funext row
    rw [rowWithout, fieldIndex?_eq_none_iff.2 h]
    rfl
  rw [without, hrow, List.map_id, List.erase_of_not_mem h]

theorem covers_of_not_mem (h : u ∉ t.fields) : t.Covers u := by
  intro position hposition
  rw [fieldIndex?_eq_none_iff.2 h] at hposition
  cases hposition

/-- A rectangular table covers all of its fields. -/
theorem Rectangular.covers (h : t.Rectangular) (u : String) : t.Covers u := by
  intro position hposition row hrow
  obtain ⟨hlt, -⟩ := List.getElem?_eq_some_iff.1 (getElem?_of_fieldIndex? hposition)
  rw [h row hrow]
  exact hlt

/-! ### Looking up -/

/-- Different fields stand at different positions. -/
theorem fieldIndex?_ne {position : Nat} (hne : name ≠ u) (h : t.fieldIndex? name = some position) :
    t.fieldIndex? u ≠ some position := by
  intro hu
  have hname := getElem?_of_fieldIndex? h
  rw [getElem?_of_fieldIndex? hu, Option.some.injEq] at hname
  exact hne hname.symm

/-- Another field is found where it has moved to. -/
theorem fieldIndex?_without (hne : name ≠ u) :
    (t.without u).fieldIndex? name = (t.fieldIndex? name).map (t.positionWithout u) := by
  cases hu : t.fieldIndex? u with
  | none =>
    have hid : t.positionWithout u = id := by
      funext position
      rw [positionWithout, hu]
      rfl
    rw [without_of_not_mem (fieldIndex?_eq_none_iff.1 hu), hid, Option.map_id, id]
  | some removed =>
    have herase : t.fields.erase u = t.fields.eraseIdx removed := by
      rw [List.erase_eq_eraseIdx, show t.fields.idxOf? u = some removed from hu]
    have hother : ∀ other, t.fields[removed]? = some other → (other == name) = false := by
      intro other hother
      rw [getElem?_of_fieldIndex? hu, Option.some.injEq] at hother
      rw [← hother]
      exact beq_false_of_ne hne.symm
    have hmoved := findIdx?_eraseIdx hother
    rw [← herase] at hmoved
    rw [fieldIndex?, without, hmoved, fieldIndex?]
    congr 1
    funext position
    rw [positionWithout, hu]

theorem hasField_without (hne : name ≠ u) : (t.without u).hasField name = t.hasField name := by
  rw [hasField, fieldIndex?_without hne, Option.isSome_map, hasField]

@[simp] theorem height_without : (t.without u).height = t.height := by
  rw [height, without, List.length_map, height]

/-- The cells of another field do not change. -/
theorem cellAt_without {position : Nat} (hne : name ≠ u) (h : t.fieldIndex? name = some position)
    (row : List Cell) :
    cellAt (t.rowWithout u row) (t.positionWithout u position) = cellAt row position := by
  rw [rowWithout, positionWithout]
  cases hu : t.fieldIndex? u with
  | none => rfl
  | some removed =>
    have hdiffers : removed ≠ position := by
      intro heq
      exact fieldIndex?_ne hne h (heq ▸ hu)
    -- Behind the removed cell all others move up by one.
    simp only [cellAt, List.getD_eq_getElem?_getD, List.getElem?_eraseIdx]
    by_cases hlt : removed < position
    · rw [if_pos hlt, if_neg (by omega), Nat.sub_add_cancel (by omega)]
    · rw [if_neg hlt, if_pos (by omega)]

theorem column?_without (hne : name ≠ u) : (t.without u).column? name = t.column? name := by
  rw [column?, column?, fieldIndex?_without hne]
  cases h : t.fieldIndex? name with
  | none => rfl
  | some position =>
    rw [Option.map_some, Option.map_some, Option.map_some, without, List.map_map]
    congr 2
    funext row
    exact cellAt_without hne h row

theorem distinct?_without (hne : name ≠ u) : (t.without u).distinct? name = t.distinct? name := by
  rw [distinct?, distinct?, column?_without hne]

theorem inferType_without (hne : name ≠ u) : (t.without u).inferType name = t.inferType name := by
  rw [inferType, inferType, column?_without hne]

/-! ### Writing a column -/

/-- Other fields stay where they are. -/
theorem fieldIndex?_withColumn (hne : name ≠ u) (cells : List Cell) :
    (t.withColumn name cells).fieldIndex? u = t.fieldIndex? u := by
  rw [fieldIndex?, fields_withColumn]
  by_cases h : t.hasField name = true
  · rw [if_pos h, fieldIndex?]
  · rw [if_neg h, List.findIdx?_append, fieldIndex?]
    simp [hne]

theorem rowWithout_withColumn (hne : name ≠ u) (cells : List Cell) :
    (t.withColumn name cells).rowWithout u = t.rowWithout u := by
  funext row
  rw [rowWithout, fieldIndex?_withColumn hne, rowWithout]

/-- Setting a cell of another field commutes with dropping the cell. -/
theorem set_rowWithout {position : Nat} (hne : name ≠ u) (h : t.fieldIndex? name = some position)
    (row : List Cell) (cell : Cell) :
    (t.rowWithout u row).set (t.positionWithout u position) cell =
      t.rowWithout u (row.set position cell) := by
  rw [rowWithout, positionWithout, rowWithout]
  cases hu : t.fieldIndex? u with
  | none => rfl
  | some removed =>
    have hdiffers : removed ≠ position := by
      intro heq
      exact fieldIndex?_ne hne h (heq ▸ hu)
    by_cases hlt : removed < position
    · simp only [if_pos hlt]
      rw [List.eraseIdx_set_lt hlt]
    · simp only [if_neg hlt]
      rw [List.eraseIdx_set_gt (by omega)]

/-- Adding a cell commutes with dropping a cell that is there. -/
theorem append_rowWithout (hcovers : t.Covers u) {row : List Cell} (hrow : row ∈ t.rows)
    (cell : Cell) : t.rowWithout u row ++ [cell] = t.rowWithout u (row ++ [cell]) := by
  rw [rowWithout, rowWithout]
  cases hu : t.fieldIndex? u with
  | none => rfl
  | some removed => exact (List.eraseIdx_append_of_lt_length (hcovers removed hu row hrow) _).symm

/-- Writing another column commutes with taking the field away. -/
theorem withColumn_without (hne : name ≠ u) (hcovers : t.Covers u) (cells : List Cell) :
    (t.without u).withColumn name cells = (t.withColumn name cells).without u := by
  -- The column leaves the field where it is, so the same cell is dropped.
  have hrow := rowWithout_withColumn (t := t) hne cells
  rw [withColumn, fieldIndex?_without hne, height_without]
  cases h : t.fieldIndex? name with
  | none =>
    have hfields : (t.fields ++ [name]).erase u = t.fields.erase u ++ [name] := by
      rw [List.erase_append]
      split
      · rfl
      · next hu => rw [List.erase_of_not_mem hu, List.erase_of_not_mem (by simpa using hne.symm)]
    simp only [withColumn, h] at hrow ⊢
    simp only [Option.map_none, without, hrow, hfields, List.zipWith_map_left, List.map_zipWith]
    congr 1
    exact zipWith_congr_left _ fun row hrow cell => append_rowWithout hcovers hrow cell
  | some position =>
    simp only [withColumn, h] at hrow ⊢
    simp only [Option.map_some, without, hrow, List.zipWith_map_left, List.map_zipWith,
      set_rowWithout hne h]

/-- Rows grow with the list of fields when a column is written. -/
theorem exists_of_mem_rows_withColumn {cells : List Cell} {row : List Cell}
    (h : row ∈ (t.withColumn name cells).rows) :
    ∃ old ∈ t.rows,
      row.length + t.fields.length = old.length + (t.withColumn name cells).fields.length := by
  cases hname : t.fieldIndex? name with
  | none =>
    simp only [withColumn, hname] at h ⊢
    obtain ⟨old, hold, cell, -, rfl⟩ := exists_of_mem_zipWith h
    refine ⟨old, hold, ?_⟩
    simp only [List.length_append, List.length_singleton]
    omega
  | some position =>
    simp only [withColumn, hname] at h ⊢
    obtain ⟨old, hold, cell, -, rfl⟩ := exists_of_mem_zipWith h
    exact ⟨old, hold, by rw [List.length_set]⟩

theorem Rectangular.withColumn (h : t.Rectangular) (name : String) (cells : List Cell) :
    (t.withColumn name cells).Rectangular := by
  intro row hrow
  obtain ⟨old, hold, hlength⟩ := exists_of_mem_rows_withColumn hrow
  have hold := h old hold
  omega

theorem Covers.withColumn (h : t.Covers u) (hne : name ≠ u) (cells : List Cell) :
    (t.withColumn name cells).Covers u := by
  intro position hposition row hrow
  rw [fieldIndex?_withColumn hne] at hposition
  obtain ⟨old, hold, hlength⟩ := exists_of_mem_rows_withColumn hrow
  have hold := h position hposition old hold
  have hfields : t.fields.length ≤ (t.withColumn name cells).fields.length := by
    rw [fields_withColumn]
    split
    · exact Nat.le_refl _
    · simp
  omega

/-- A column that was just added is taken away again. -/
theorem without_withColumn (hrect : t.Rectangular) (hnew : t.hasField u = false)
    (cells : List Cell) : (t.withColumn u cells).without u = t := by
  have hnone : t.fieldIndex? u = none := by
    rw [hasField, Option.isSome_eq_false_iff, Option.isNone_iff_eq_none] at hnew
    exact hnew
  have hlast : (t.withColumn u cells).fieldIndex? u = some t.fields.length := by
    have habsent : t.fields.findIdx? (· == u) = none := hnone
    rw [fieldIndex?, fields_withColumn, hnew]
    simp [List.findIdx?_append, habsent]
  have hrow : (t.withColumn u cells).rowWithout u = fun row => row.eraseIdx t.fields.length := by
    funext row
    rw [rowWithout, hlast]
  have hfields : (t.fields ++ [u]).erase u = t.fields := by
    rw [List.erase_append_right _ (fieldIndex?_eq_none_iff.1 hnone)]
    simp
  -- Every row is as long as the list of fields, so its last cell goes again.
  have hrows : t.rows.zipWith (fun row cell => (row ++ [cell]).eraseIdx t.fields.length)
      (resized cells t.height) = t.rows := by
    have hkept : ∀ row ∈ t.rows, ∀ cell, (row ++ [cell]).eraseIdx t.fields.length = row := by
      intro row hmem cell
      rw [← hrect row hmem, List.eraseIdx_append_of_length_le (Nat.le_refl _)]
      simp
    rw [zipWith_congr_left (g := fun row _ => row) _ hkept]
    exact zipWith_left_eq_self (length_resized cells t.height)
  rw [without, hrow]
  simp only [withColumn, hnone, hfields, List.map_zipWith, hrows]

/-! ### Panels -/

/-- Picking the rows of a panel commutes with taking another field away. -/
theorem filterEq_without (hne : name ≠ u) (cell : Cell) :
    (t.without u).filterEq name cell = (t.filterEq name cell).without u := by
  have hrow : (t.filterEq name cell).rowWithout u = t.rowWithout u := by
    funext row
    rw [rowWithout, fieldIndex?_congr (fields_filterEq t name cell), rowWithout]
  rw [filterEq, fieldIndex?_without hne]
  cases h : t.fieldIndex? name with
  | none => simp [filterEq, h, without, ofFields]
  | some position =>
    simp only [filterEq, h] at hrow ⊢
    simp only [Option.map_some, without, hrow, List.filter_map]
    congr 2
    refine List.filter_congr fun row _ => ?_
    rw [Function.comp_apply, cellAt_without hne h]

theorem Covers.filterEq (h : t.Covers u) (cell : Cell) : (t.filterEq name cell).Covers u := by
  intro position hposition row hrow
  rw [fieldIndex?_congr (fields_filterEq t name cell)] at hposition
  refine h position hposition row ?_
  unfold Table.filterEq at hrow
  split at hrow
  · cases hrow
  · exact (List.mem_filter.1 hrow).1

end Table

/-! ### Classes -/

namespace Classes

variable {κ α β : Type} [BEq κ]

/-- The classes with other members. -/
def mapMembers (f : α → β) (classes : Classes κ α) : Classes κ β :=
  classes.map fun c => (c.1, c.2.map f)

theorem insert_mapMembers (f : α → β) (key : κ) (a : α) (classes : Classes κ α) :
    insert key (f a) (mapMembers f classes) = mapMembers f (insert key a classes) := by
  induction classes with
  | nil => rfl
  | cons c rest ih =>
    obtain ⟨other, members⟩ := c
    rw [mapMembers, List.map_cons, insert, insert]
    by_cases h : (other == key) = true
    · rw [if_pos h, if_pos h, mapMembers, List.map_cons, List.map_append, List.map_singleton]
    · rw [if_neg h, if_neg h, mapMembers, List.map_cons, ← mapMembers, ← mapMembers, ih]

/-- Elements that keep their keys keep their classes. -/
theorem ofList_map {f : α → β} {key : β → κ} {key' : α → κ} (hkey : ∀ a, key (f a) = key' a)
    (elements : List α) : ofList key (elements.map f) = mapMembers f (ofList key' elements) := by
  -- Classes are collected from left to right, so generalize what was found.
  have hfold : ∀ classes : Classes κ α,
      (elements.map f).foldl (fun found b => insert (key b) b found) (mapMembers f classes) =
        mapMembers f (elements.foldl (fun found a => insert (key' a) a found) classes) := by
    induction elements with
    | nil => exact fun classes => rfl
    | cons a elements ih =>
      intro classes
      rw [List.map_cons, List.foldl_cons, List.foldl_cons, hkey, insert_mapMembers, ih]
  exact hfold []

end Classes

namespace Table

variable {t : Table} {u : String}

/-- The positions of other fields move. -/
theorem filterMap_fieldIndex?_without {names : List String} (h : u ∉ names) :
    names.filterMap (t.without u).fieldIndex? =
      (names.filterMap t.fieldIndex?).map (t.positionWithout u) := by
  rw [List.map_filterMap]
  refine List.filterMap_congr fun name hmem => fieldIndex?_without fun heq => h (heq ▸ hmem)

/-- The keys of the rows by other fields do not change. -/
theorem keyAt_without {names : List String} (h : u ∉ names) (row : List Cell) :
    keyAt (names.filterMap (t.without u).fieldIndex?) (t.rowWithout u row) =
      keyAt (names.filterMap t.fieldIndex?) row := by
  rw [filterMap_fieldIndex?_without h, keyAt, keyAt, List.map_map]
  refine List.map_congr_left fun position hposition => ?_
  obtain ⟨name, hmem, hname⟩ := List.mem_filterMap.1 hposition
  have hne : name ≠ u := fun heq => h (heq ▸ hmem)
  exact cellAt_without hne hname row

/-- The rows fall into the same classes by other fields. -/
theorem classes_without {names : List String} (h : u ∉ names) :
    (t.without u).classes (names.filterMap (t.without u).fieldIndex?) =
      Classes.mapMembers (Prod.map (t.rowWithout u) id)
        (t.classes (names.filterMap t.fieldIndex?)) := by
  have hrows : (t.without u).rows.zipIdx = t.rows.zipIdx.map (Prod.map (t.rowWithout u) id) := by
    rw [without, List.zipIdx_map]
  have hfound : Classes.ofList
        (fun row : List Cell × Nat => keyAt (names.filterMap (t.without u).fieldIndex?) row.1)
        (t.without u).rows.zipIdx =
      Classes.mapMembers (Prod.map (t.rowWithout u) id)
        (Classes.ofList (fun row => keyAt (names.filterMap t.fieldIndex?) row.1)
          t.rows.zipIdx) := by
    rw [hrows]
    refine Classes.ofList_map (fun row => ?_) _
    exact keyAt_without h row.1
  -- Whether there are positions at all decides on the class of no rows.
  have hnone : (names.filterMap (t.without u).fieldIndex?).isEmpty =
      (names.filterMap t.fieldIndex?).isEmpty := by
    rw [filterMap_fieldIndex?_without h, List.isEmpty_map]
  unfold classes
  rw [hfound, hnone]
  simp only [Classes.mapMembers, List.isEmpty_map]
  split
  · rfl
  · rfl

/-! ### Reducing -/

/-- A table that is reduced by other fields to another field is the same. -/
theorem reduced_without {f : AggregateFunction} {input : Option Nat} {out : String}
    {groupBy : List String} (hgroupBy : u ∉ groupBy)
    (hinput : ∀ position, input = some position →
      ∃ name, name ≠ u ∧ t.fieldIndex? name = some position) :
    (t.without u).reduced f (input.map (t.positionWithout u)) out groupBy =
      t.reduced f input out groupBy := by
  simp only [reduced, classes_without hgroupBy, Classes.mapMembers, List.map_map]
  congr 1
  refine List.map_congr_left fun group _ => ?_
  cases input with
  | none => simp
  | some position =>
    obtain ⟨name, hne, hname⟩ := hinput position rfl
    simp [Function.comp_def, cellAt_without hne hname]

theorem inputIndex?_without {step : AggregateStep} (h : step.field ≠ some u) :
    (t.without u).inputIndex? step =
      (t.inputIndex? step).map (Option.map (t.positionWithout u)) := by
  unfold inputIndex?
  cases hfield : step.field with
  | none => rfl
  | some name =>
    have hne : name ≠ u := fun heq => h (hfield.trans (congrArg some heq))
    simp only [fieldIndex?_without hne]
    cases t.fieldIndex? name with
    | none => rfl
    | some position => rfl

/-- The field that is reduced stands at the position that is looked at. -/
theorem exists_of_inputIndex?_eq_some {step : AggregateStep} {position : Nat}
    (h : t.inputIndex? step = .ok (some position)) :
    ∃ name, step.field = some name ∧ t.fieldIndex? name = some position := by
  unfold inputIndex? at h
  split at h
  · cases h
  · next name hname =>
    split at h
    · next found hfound =>
      cases h
      exact ⟨name, hname, hfound⟩
    · cases h

/-- An aggregate over other fields gives the same table. -/
theorem aggregated_without {step : AggregateStep} {groupBy : List String} (hgroupBy : u ∉ groupBy)
    (hfield : step.field ≠ some u) :
    (t.without u).aggregated step groupBy = t.aggregated step groupBy := by
  unfold aggregated
  cases AggregateFunction.ofName? step.function with
  | none => rfl
  | some f =>
    simp only [inputIndex?_without hfield]
    cases hinput : t.inputIndex? step with
    | error e => rfl
    | ok input =>
      have hother : ∀ position, input = some position →
          ∃ name, name ≠ u ∧ t.fieldIndex? name = some position := by
        intro position hposition
        obtain ⟨name, hname, hfound⟩ := exists_of_inputIndex?_eq_some (hposition ▸ hinput)
        exact ⟨name, fun heq => hfield (hname.trans (congrArg some heq)), hfound⟩
      exact congrArg Except.ok (reduced_without hgroupBy hother)

/-- Buckets of another field are the same. -/
theorem binned_without {step : BinStep} {defaultMaxBins : Nat} (hfield : step.field ≠ u)
    (hout : step.out ≠ u) (hcovers : t.Covers u) :
    (t.without u).binned step defaultMaxBins =
      (t.binned step defaultMaxBins).map fun derived => derived.without u := by
  unfold binned
  rw [column?_without hfield, height_without]
  cases t.column? step.field with
  | none => rfl
  | some column =>
    dsimp only
    cases Binning.fit column step.width (step.mostBins defaultMaxBins) with
    | error cause => rfl
    | ok fitted =>
      cases fitted with
      | none => simp only [withColumn_without hout hcovers, Except.map]
      | some b => simp only [withColumn_without hout hcovers, Except.map]

end Table

end PlotGrammar
