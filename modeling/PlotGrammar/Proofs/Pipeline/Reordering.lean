import PlotGrammar.Proofs.Pipeline.Histories
import PlotGrammar.Proofs.Table.Reordering

/-! # Aggregates over reordered rows

  Aggregates that only count do not look at the order of rows. Over two tables
  that are reorderings of each other, a list of them fails alike, or leads to
  tables that are reorderings of each other, with the same grouping and the
  same fields written (`run_reordered`).

  One step keeps this relation between the states (`Reordered.next`): the
  grouping is inferred from the fields, which are the same, and the aggregate
  of one table is a reordering of that of the other. Cells are compared by
  `==` throughout, since the first step may already leave zeros of different
  signs in the two tables.
-/

namespace PlotGrammar.Pipeline

variable {s s' : State} {defaultMaxBins : Nat} {dimensions : List String}

/-! ### States -/

/-- The states differ in the order of rows only. -/
structure State.Reordered (s s' : State) : Prop where
  table : s.table.Reordered s'.table
  groupBy : s.groupBy = s'.groupBy
  aggregated : s.aggregated = s'.aggregated
  binned : s.binned = s'.binned
  anyAggregate : s.anyAggregate = s'.anyAggregate

/-- The outcomes differ in the order of rows only. -/
structure Outcome.Reordered (o o' : Outcome) : Prop where
  table : o.table.Reordered o'.table
  groupBy : o.groupBy = o'.groupBy
  aggregated : o.aggregated = o'.aggregated

namespace State.Reordered

theorem initial {t t' : Table} (h : t.Reordered t') : (State.initial t).Reordered (.initial t') :=
  ⟨h, rfl, rfl, rfl, rfl⟩

theorem outcome (h : s.Reordered s') : s.outcome.Reordered s'.outcome := by
  unfold State.outcome
  rw [h.groupBy, h.binned, h.anyAggregate]
  exact ⟨h.table, rfl, h.aggregated⟩

/-- The groupings are inferred from the same fields and lists. -/
theorem inferredGroupBy_eq (h : s.Reordered s') (step : AggregateStep) :
    inferredGroupBy s step dimensions = inferredGroupBy s' step dimensions := by
  have hmay : mayGroup s.table step = mayGroup s'.table step := by
    funext name
    rw [mayGroup, mayGroup, Table.hasField_congr h.table.fields]
  unfold inferredGroupBy
  rw [hmay, h.binned, h.aggregated]

/-- One more aggregate with a counting function keeps the states reordered, or
    fails in both alike. -/
theorem next (h : s.Reordered s') {step : AggregateStep}
    (hstep : step.function ∈ AggregateFunction.countingNames) :
    Agree State.Reordered (s.next defaultMaxBins dimensions (.aggregate step))
      (s'.next defaultMaxBins dimensions (.aggregate step)) := by
  simp only [State.next]
  rw [← h.inferredGroupBy_eq step]
  have htables := h.table.aggregated hstep
    fun name (hname : name ∈ inferredGroupBy s step dimensions) =>
      hasField_of_mem_inferredGroupBy hname
  refine htables.bind fun table table' htable => .ok ?_
  -- The lists of the states are cut down to the fields of the new tables.
  have hfields : table.hasField = table'.hasField := funext (Table.hasField_congr htable.fields)
  rw [h.binned, h.aggregated, hfields]
  exact ⟨htable, rfl, rfl, rfl, rfl⟩

end State.Reordered

/-! ### Runs -/

/-- Aggregates with counting functions over two tables with the same rows, up
    to their order and the equality of cells, fail with the same failure, or
    lead to such tables again, with the same grouping and the same aggregated
    fields. -/
theorem run_reordered {t t' : Table} (h : t.Reordered t') {steps : List AggregateStep}
    (hsteps : ∀ step ∈ steps, step.function ∈ AggregateFunction.countingNames)
    (dimensions : List String) :
    Agree Outcome.Reordered (run defaultMaxBins t (steps.map .aggregate) dimensions)
      (run defaultMaxBins t' (steps.map .aggregate) dimensions) := by
  unfold run
  have hfold : Agree State.Reordered
      ((steps.map .aggregate).foldlM (State.next defaultMaxBins dimensions) (.initial t))
      ((steps.map .aggregate).foldlM (State.next defaultMaxBins dimensions) (.initial t')) := by
    apply Agree.foldlM
    · intro s s' step hmem hreordered
      obtain ⟨step, hstep, rfl⟩ := List.mem_map.1 hmem
      exact hreordered.next (hsteps step hstep)
    · exact .initial h
  exact hfold.bind fun s s' hlast => .ok hlast.outcome

/-- Kinds of things at sites, of which one is numbered by zero with either
    sign. -/
def zeroFirst : Table :=
  ⟨["site", "kind"], [[.num 0.0, .text "x"], [.text "B", .null], [.num (-0.0), .text "y"]]⟩

/-- The same rows in another order. -/
def negativeZeroFirst : Table :=
  ⟨["site", "kind"], [[.num (-0.0), .text "y"], [.num 0.0, .text "x"], [.text "B", .null]]⟩

/-- Count the kinds at each site, and then the sites. -/
def countSites : List AggregateStep :=
  [⟨"valid", some "kind", "kinds"⟩, ⟨"distinct", some "kinds", "sites"⟩]

/-- The site is one zero or the other, and the counts are the same. -/
theorem run_reordered_of_zeros :
    zeroFirst.Reordered negativeZeroFirst ∧
      (∀ step ∈ countSites, step.function ∈ AggregateFunction.countingNames) ∧
      Agree Outcome.Reordered (run 10 zeroFirst (countSites.map .aggregate) ["site"])
        (run 10 negativeZeroFirst (countSites.map .aggregate) ["site"]) ∧
      run 10 zeroFirst (countSites.map .aggregate) ["site"] =
        .ok ⟨⟨["site", "sites"], [[.num 0.0, AggregateFunction.counted 1],
          [.text "B", AggregateFunction.counted 1]]⟩, ["site"], ["sites"]⟩ ∧
      run 10 negativeZeroFirst (countSites.map .aggregate) ["site"] =
        .ok ⟨⟨["site", "sites"], [[.num (-0.0), AggregateFunction.counted 1],
          [.text "B", AggregateFunction.counted 1]]⟩, ["site"], ["sites"]⟩ := by
  have hrows : (zeroFirst.rows.take 2 ++ zeroFirst.rows.drop 2).Perm
      (zeroFirst.rows.drop 2 ++ zeroFirst.rows.take 2) := List.perm_append_comm
  have htables : zeroFirst.Reordered negativeZeroFirst := ⟨rfl, .of_perm hrows⟩
  have hsteps : ∀ step ∈ countSites, step.function ∈ AggregateFunction.countingNames := by
    decide
  exact ⟨htables, hsteps, run_reordered htables hsteps ["site"], rfl, rfl⟩

end PlotGrammar.Pipeline
