import PlotGrammar.Proofs.Pipeline.Histories
import PlotGrammar.Proofs.Table.Reduction

/-! # Panels and aggregates

  A facet splits the table of a node and evaluates its view over each panel.
  If the view only aggregates, and keeps the field of the facet, the order does
  not matter: the steps over a panel come to the panel of what the steps over
  the whole table come to (`run_filterEq`).

  - The field is a group key, so all rows of a group have the same cell under
    it, and a group is in one panel as a whole (`members_filterEq`).
  - The keys of a panel are those of the table with its cell, in the same
    order (`keys_filterEq`).
  - An aggregate keeps its group keys, so the field is still a group key in the
    next step (`KeepsKey.next`).
-/

namespace PlotGrammar

namespace Table

variable {t : Table} {groupBy : List String} {field : String} {cell : Cell} {i : Nat}

/-- The cell of a key at the position of a field is the one under the field. -/
theorem cellAt_keyOf (hi : groupBy.findIdx? (· == field) = some i) (row : List Cell) :
    cellAt (t.keyOf groupBy row) i = t.cellUnder row field := by
  obtain ⟨hlt, hname, -⟩ := List.findIdx?_eq_some_iff_getElem.1 hi
  rw [cellAt, keyOf, List.getD_eq_getElem?_getD, List.getElem?_map, List.getElem?_eq_getElem hlt,
    Option.map_some, Option.getD_some, beq_iff_eq.1 hname]

/-! ### The groups of a panel -/

@[simp] theorem cellUnder_filterEq (row : List Cell) (name : String) :
    (t.filterEq field cell).cellUnder row name = t.cellUnder row name := by
  rw [cellUnder, cellUnder, fieldIndex?_congr (fields_filterEq t field cell)]

@[simp] theorem keyOf_filterEq : (t.filterEq field cell).keyOf groupBy = t.keyOf groupBy := by
  funext row
  exact List.map_congr_left fun name _ => cellUnder_filterEq row name

@[simp] theorem inputs_filterEq (name : Option String) (rows : List (List Cell)) :
    (t.filterEq field cell).inputs name rows = t.inputs name rows := by
  cases name with
  | none => rfl
  | some name => exact List.map_congr_left fun row _ => cellUnder_filterEq row name

/-- The rows of a panel are those whose key has the cell. -/
theorem rows_filterEq_of_key (hfield : t.hasField field = true)
    (hi : groupBy.findIdx? (· == field) = some i) :
    (t.filterEq field cell).rows =
      t.rows.filter fun row => cellAt (t.keyOf groupBy row) i == cell := by
  obtain ⟨position, hposition⟩ := hasField_iff_exists.1 hfield
  simp only [filterEq, hposition, cellAt_keyOf hi, cellUnder_of_fieldIndex? hposition]

/-- The keys of a panel are those with the cell, in their order. -/
theorem keys_filterEq (hfield : t.hasField field = true)
    (hi : groupBy.findIdx? (· == field) = some i) :
    (t.filterEq field cell).keys groupBy =
      (t.keys groupBy).filter fun key => cellAt key i == cell := by
  have hgroupBy : groupBy ≠ [] := by
    intro hnil
    rw [hnil] at hi
    cases hi
  -- Equal keys have equal cells, so it is the same to pick rows or keys.
  have hcell : ∀ key other : List Cell, (other == key) = true →
      (cellAt other i == cell) = (cellAt key i == cell) :=
    fun _ _ heq => BEq.congr_left (Cell.cellAt_beq_cellAt heq i)
  rw [keys, keys, if_neg hgroupBy, if_neg hgroupBy, keyOf_filterEq, rows_filterEq_of_key hfield hi,
    ← eraseDups_filter hcell, List.filter_map]
  rfl

/-- A group with the cell is in the panel as a whole. -/
theorem members_filterEq (hfield : t.hasField field = true)
    (hi : groupBy.findIdx? (· == field) = some i) {key : List Cell}
    (hkey : (cellAt key i == cell) = true) :
    (t.filterEq field cell).members groupBy key = t.members groupBy key := by
  rw [members, members, keyOf_filterEq, rows_filterEq_of_key hfield hi, List.filter_filter]
  refine List.filter_congr fun row _ => ?_
  -- A row with the key has the cell of the panel.
  cases heq : t.keyOf groupBy row == key with
  | false => rfl
  | true => rw [Bool.true_and, BEq.congr_left (Cell.cellAt_beq_cellAt heq i), hkey]

theorem result_filterEq (hfield : t.hasField field = true)
    (hi : groupBy.findIdx? (· == field) = some i) {key : List Cell}
    (hkey : (cellAt key i == cell) = true) (f : AggregateFunction) (input : Option String) :
    (t.filterEq field cell).result f input groupBy key = t.result f input groupBy key := by
  simp only [result, members_filterEq hfield hi hkey, inputs_filterEq]

/-! ### The panel of an aggregate -/

/-- A field of a grouping has a position in it. -/
theorem exists_findIdx?_of_mem (hmem : field ∈ groupBy) :
    ∃ i, groupBy.findIdx? (· == field) = some i := by
  rw [← Option.isSome_iff_exists, List.findIdx?_isSome, List.any_eq_true]
  exact ⟨field, hmem, beq_self_eq_true field⟩

/-- A reduced table has a field where its grouping has it. -/
theorem fieldIndex?_reducedByKey (hi : groupBy.findIdx? (· == field) = some i)
    (f : AggregateFunction) (input : Option String) (out : String) :
    (t.reducedByKey f input out groupBy).fieldIndex? field = some i := by
  rw [fieldIndex?, reducedByKey, List.findIdx?_append, hi]
  rfl

/-- A row of a reduced table has the cells of its key. -/
theorem cellAt_append_of_mem_keys (hi : groupBy.findIdx? (· == field) = some i) {key : List Cell}
    (hkey : key ∈ t.keys groupBy) (last : Cell) : cellAt (key ++ [last]) i = cellAt key i := by
  have hlt : i < key.length := by
    rw [length_of_mem_keys hkey]
    exact (List.findIdx?_eq_some_iff_getElem.1 hi).1
  rw [cellAt, cellAt, List.getD_eq_getElem?_getD, List.getElem?_append_left hlt,
    List.getD_eq_getElem?_getD]

/-- Reducing a panel by a grouping with its field gives the panel of the
    reduced table. -/
theorem reducedByKey_filterEq (hfield : t.hasField field = true) (hmem : field ∈ groupBy)
    (cell : Cell) (f : AggregateFunction) (input : Option String) (out : String) :
    (t.filterEq field cell).reducedByKey f input out groupBy =
      (t.reducedByKey f input out groupBy).filterEq field cell := by
  obtain ⟨i, hi⟩ := exists_findIdx?_of_mem hmem
  -- Both tables are made of the keys with the cell: the panel has no others,
  -- and in the reduced table the cell of a row is that of its key.
  have hresults : ∀ key ∈ (t.keys groupBy).filter fun key => cellAt key i == cell,
      key ++ [(t.filterEq field cell).result f input groupBy key] =
        key ++ [t.result f input groupBy key] := by
    intro key hkey
    rw [result_filterEq hfield hi (List.mem_filter.1 hkey).2]
  have hpicked : (t.keys groupBy).filter (fun key => cellAt key i == cell) =
      (t.keys groupBy).filter fun key =>
        cellAt (key ++ [t.result f input groupBy key]) i == cell := by
    refine List.filter_congr fun key hkey => ?_
    rw [cellAt_append_of_mem_keys hi hkey]
  have hpanel : (t.reducedByKey f input out groupBy).filterEq field cell =
      ⟨groupBy ++ [out], ((t.keys groupBy).filter fun key => cellAt key i == cell).map
        fun key => key ++ [t.result f input groupBy key]⟩ := by
    simp only [filterEq, fieldIndex?_reducedByKey hi]
    rw [hpicked, reducedByKey, List.filter_map]
    rfl
  rw [hpanel, reducedByKey, keys_filterEq hfield hi, List.map_congr_left hresults]

/-- An aggregate over a panel comes to the panel of what it comes to over the
    table, or fails as it does there. -/
theorem aggregated_filterEq (h : ∀ name ∈ groupBy, t.hasField name = true)
    (hmem : field ∈ groupBy) (cell : Cell) (step : AggregateStep) :
    (t.filterEq field cell).aggregated step groupBy =
      (t.aggregated step groupBy).map fun table => table.filterEq field cell := by
  -- Both fail by the function or by a missing field, never by the rows.
  have hinput : (t.filterEq field cell).inputIndex? step = t.inputIndex? step := by
    simp only [inputIndex?, fieldIndex?_congr (fields_filterEq t field cell)]
  have hpanel : ∀ name ∈ groupBy, (t.filterEq field cell).hasField name = true := by
    intro name hname
    rw [hasField_filterEq, h name hname]
  unfold aggregated
  cases AggregateFunction.ofName? step.function with
  | none => rfl
  | some f =>
    simp only [hinput]
    cases hok : t.inputIndex? step with
    | error e => rfl
    | ok input =>
      have hreduced := reducedByKey_filterEq (h field hmem) hmem cell f step.field step.out
      rw [← reduced_eq_reducedByKey h hok, ← reduced_eq_reducedByKey hpanel (hinput.trans hok)]
        at hreduced
      exact congrArg Except.ok hreduced

end Table

namespace Pipeline

variable {s s' : State} {defaultMaxBins : Nat} {dimensions : List String} {field : String}

/-! ### Steps -/

/-- The state with a panel of its table. -/
def State.panel (s : State) (field : String) (cell : Cell) : State :=
  { s with table := s.table.filterEq field cell }

/-- A state in which a dimension is a group key of whatever aggregate is next. -/
structure KeepsKey (field : String) (s : State) : Prop where
  /-- The table has the field. -/
  hasField : s.table.hasField field = true
  /-- No aggregate wrote it. -/
  aggregated : field ∉ s.aggregated

/-- The grouping is inferred from the fields, not from the rows. -/
theorem inferredGroupBy_panel (cell : Cell) (step : AggregateStep) :
    inferredGroupBy (s.panel field cell) step dimensions = inferredGroupBy s step dimensions := by
  have hmay : mayGroup (s.panel field cell).table step = mayGroup s.table step := by
    funext name
    rw [mayGroup, mayGroup, State.panel, Table.hasField_filterEq]
  rw [inferredGroupBy, inferredGroupBy, hmay]
  rfl

/-- The field is a group key of an aggregate that leaves it alone. -/
theorem KeepsKey.mem_inferredGroupBy (h : KeepsKey field s) (hdimension : field ∈ dimensions)
    {step : AggregateStep} (hout : step.out ≠ field) (hinput : step.field ≠ some field) :
    field ∈ inferredGroupBy s step dimensions :=
  Pipeline.mem_inferredGroupBy.2
    ⟨mayGroup_iff.2 ⟨h.hasField, hout.symm, hinput⟩, .inr ⟨hdimension, h.aggregated⟩⟩

/-- Such an aggregate comes to the panel of what it comes to over the table. -/
theorem State.next_panel (h : KeepsKey field s) (hdimension : field ∈ dimensions)
    {step : AggregateStep} (hout : step.out ≠ field) (hinput : step.field ≠ some field)
    (cell : Cell) :
    (s.panel field cell).next defaultMaxBins dimensions (.aggregate step) =
      (s.next defaultMaxBins dimensions (.aggregate step)).map fun s' => s'.panel field cell := by
  have hpanel := Table.aggregated_filterEq
    (fun name hname => hasField_of_mem_inferredGroupBy hname)
    (h.mem_inferredGroupBy hdimension hout hinput) cell step
  simp only [next]
  rw [inferredGroupBy_panel, panel, hpanel]
  cases s.table.aggregated step (inferredGroupBy s step dimensions) with
  | error e => rfl
  | ok table =>
    -- The lists of the state look at the fields of the new table only.
    have hsame : (table.filterEq field cell).hasField = table.hasField :=
      funext (Table.hasField_filterEq table field cell)
    simp only [bind, Except.bind, Except.map, pure, Except.pure, panel, hsame]

/-- And it keeps the field. -/
theorem KeepsKey.next (h : KeepsKey field s) (hdimension : field ∈ dimensions)
    {step : AggregateStep} (hout : step.out ≠ field) (hinput : step.field ≠ some field)
    (hnext : s.next defaultMaxBins dimensions (.aggregate step) = .ok s') : KeepsKey field s' := by
  obtain ⟨table, hfields, rfl⟩ := exists_of_next_aggregate hnext
  refine ⟨?_, fun hmem => ?_⟩
  · rw [Table.hasField_iff_mem, hfields]
    exact List.mem_append_left _ (h.mem_inferredGroupBy hdimension hout hinput)
  · rcases mem_withName.1 hmem with hold | heq
    · exact h.aggregated (List.mem_filter.1 hold).1
    · exact hout heq.symm

/-! ### Runs -/

/-- What aggregates over a panel and over the whole table have in common. -/
theorem agree_run_filterEq {t : Table} {steps : List AggregateStep}
    (hfield : t.hasField field = true) (hdimension : field ∈ dimensions)
    (hsteps : ∀ step ∈ steps, step.out ≠ field ∧ step.field ≠ some field) (cell : Cell) :
    Agree (fun o o' => o = { o' with table := o'.table.filterEq field cell })
      (run defaultMaxBins (t.filterEq field cell) (steps.map .aggregate) dimensions)
      (run defaultMaxBins t (steps.map .aggregate) dimensions) := by
  have hfold : Agree (fun s s' => s = s'.panel field cell ∧ KeepsKey field s')
      ((steps.map .aggregate).foldlM (State.next defaultMaxBins dimensions)
        (State.initial (t.filterEq field cell)))
      ((steps.map .aggregate).foldlM (State.next defaultMaxBins dimensions) (State.initial t)) := by
    apply Agree.foldlM
    · -- One step keeps both the equation and the field.
      intro s s' step hmem ⟨heq, hkeeps⟩
      subst heq
      obtain ⟨step, hstep, rfl⟩ := List.mem_map.1 hmem
      obtain ⟨hout, hinput⟩ := hsteps step hstep
      refine .of_eq_map (State.next_panel hkeeps hdimension hout hinput cell) ?_
      exact fun s'' hnext => hkeeps.next hdimension hout hinput hnext
    · exact ⟨rfl, hfield, List.not_mem_nil⟩
  unfold run
  refine hfold.bind fun s s' ⟨heq, _⟩ => .ok ?_
  rw [heq]
  rfl

/-- Aggregates over a panel come to the panel of what they come to over the
    whole table, or fail as they do there, if the field of the panel is a
    dimension and no aggregate reduces it or writes over it. -/
theorem run_filterEq {t : Table} {steps : List AggregateStep} (hfield : t.hasField field = true)
    (hdimension : field ∈ dimensions)
    (hsteps : ∀ step ∈ steps, step.out ≠ field ∧ step.field ≠ some field) (cell : Cell) :
    run defaultMaxBins (t.filterEq field cell) (steps.map .aggregate) dimensions =
      (run defaultMaxBins t (steps.map .aggregate) dimensions).map
        fun o => { o with table := o.table.filterEq field cell } :=
  Agree.iff_eq_map.1 (agree_run_filterEq hfield hdimension hsteps cell)

/-- Kinds of things at two sites, of which one is numbered by zero with either
    sign. -/
def siteKinds : Table :=
  ⟨["site", "kind"], [[.num 0.0, .text "x"], [.text "B", .text "x"], [.num (-0.0), .text "y"],
    [.num (-0.0), .text "x"]]⟩

/-- Count the things of each kind, and then the kinds. -/
def countKinds : List AggregateStep :=
  [⟨"count", none, "n"⟩, ⟨"distinct", some "kind", "kinds"⟩]

/-- The panel of the zeros has two kinds, as the whole table has there. -/
theorem run_filterEq_of_kinds :
    siteKinds.hasField "site" = true ∧ "site" ∈ ["site", "kind"] ∧
      (∀ step ∈ countKinds, step.out ≠ "site" ∧ step.field ≠ some "site") ∧
      run 10 (siteKinds.filterEq "site" (.num (-0.0))) (countKinds.map .aggregate)
          ["site", "kind"] =
        .ok ⟨⟨["site", "kinds"], [[.num 0.0, AggregateFunction.counted 2]]⟩, ["site"],
          ["kinds"]⟩ := by
  have hfield : siteKinds.hasField "site" = true := rfl
  have hdimension : "site" ∈ ["site", "kind"] := List.mem_cons_self
  have hsteps : ∀ step ∈ countKinds, step.out ≠ "site" ∧ step.field ≠ some "site" := by decide
  refine ⟨hfield, hdimension, hsteps, ?_⟩
  rw [run_filterEq hfield hdimension hsteps]
  rfl

end Pipeline

end PlotGrammar
