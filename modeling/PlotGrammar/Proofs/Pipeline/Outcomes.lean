import Mathlib.Data.List.Nodup
import PlotGrammar.Proofs.Pipeline.Histories

/-! # What a run leads to

  A bin step writes one column. So steps without an aggregate only widen a
  table: the fields that it has stay in their places, and columns that no step
  writes keep their cells (`Table.Widens`). They also count their outputs in
  the order of first writing (`Widens` for states, kept by `widens_of_foldlM`).

  An aggregate starts the table anew, with its group keys and its result. So
  what a run leads to is settled by its last aggregate and the bin steps after
  it, or by all of its steps if there is no aggregate (`outcome_of_run`).
-/

namespace PlotGrammar

/-! ### Names in order of first writing -/

namespace Pipeline

theorem nodup_withName {names : List String} (h : names.Nodup) (name : String) :
    (withName names name).Nodup := by
  unfold withName
  by_cases hmem : names.contains name = true
  · rw [if_pos hmem]
    exact h
  · rw [if_neg hmem]
    rw [List.contains_iff_mem] at hmem
    rw [← List.concat_eq_append]
    exact h.concat hmem

theorem nodup_foldl_withName {names : List String} (h : names.Nodup) (outs : List String) :
    (outs.foldl withName names).Nodup := by
  induction outs generalizing names with
  | nil => exact h
  | cons out outs ih => exact ih (nodup_withName h out)

@[simp] theorem mem_foldl_withName {names outs : List String} {name : String} :
    name ∈ outs.foldl withName names ↔ name ∈ names ∨ name ∈ outs := by
  induction outs generalizing names with
  | nil => simp
  | cons out outs ih => rw [List.foldl_cons, ih, mem_withName, List.mem_cons, or_assoc]

/-- The names that are new come after the others, each where it is first
    added. -/
theorem foldl_withName (names outs : List String) :
    outs.foldl withName names =
      names ++ (outs.filter fun out => !names.contains out).eraseDups := by
  induction outs generalizing names with
  | nil => simp
  | cons out outs ih =>
    rw [List.foldl_cons, ih]
    by_cases hmem : names.contains out = true
    · rw [withName, if_pos hmem, List.filter_cons_of_neg (by rw [hmem]; decide)]
    · have hrest : outs.filter (fun other => !(names ++ [out]).contains other) =
          (outs.filter fun other => !names.contains other).filter fun other => !other == out := by
        rw [List.filter_filter]
        refine List.filter_congr fun other _ => ?_
        rw [List.contains_append, Bool.not_or, Bool.and_comm, List.contains_cons, List.contains_nil,
          Bool.or_false]
      rw [withName, if_neg hmem, hrest, List.filter_cons_of_pos (by simpa using hmem),
        List.eraseDups_cons, List.append_assoc]
      rfl

end Pipeline

/-! ### Columns -/

namespace Table

/-- The cell of a row at a position, if there is one. -/
def cell? (t : Table) (row position : Nat) : Option Cell := do
  let cells ← t.rows[row]?
  cells[position]?

/-- A table has come from another by writing columns under some names. -/
structure Widens (t t' : Table) (outs : List String) : Prop where
  /-- New names come after the fields that there were. -/
  fields : t'.fields = outs.foldl Pipeline.withName t.fields
  /-- There are as many rows. -/
  height : t'.height = t.height
  /-- Columns under other names keep their cells. -/
  cells : ∀ position name, t.fields[position]? = some name → name ∉ outs →
    ∀ row cell, t.cell? row position = some cell → t'.cell? row position = some cell

namespace Widens

theorem refl (t : Table) : t.Widens t [] := ⟨rfl, rfl, fun _ _ _ _ _ _ h => h⟩

/-- Fields stay in their places. -/
theorem getElem?_fields {t t' : Table} {outs : List String} (h : t.Widens t' outs) {position : Nat}
    {name : String} (hname : t.fields[position]? = some name) :
    t'.fields[position]? = some name := by
  obtain ⟨hlt, -⟩ := List.getElem?_eq_some_iff.1 hname
  rw [h.fields, Pipeline.foldl_withName, List.getElem?_append_left hlt, hname]

theorem trans {t t' t'' : Table} {outs outs' : List String} (h : t.Widens t' outs)
    (h' : t'.Widens t'' outs') : t.Widens t'' (outs ++ outs') where
  fields := by rw [h'.fields, h.fields, List.foldl_append]
  height := h'.height.trans h.height
  cells position name hname hother row cell hcell := by
    rw [List.mem_append, not_or] at hother
    have hmid := h.cells position name hname hother.1 row cell hcell
    exact h'.cells position name (h.getElem?_fields hname) hother.2 row cell hmid

end Widens

/-- Writing a column changes the cells of its own position only. -/
theorem cell?_withColumn {t : Table} {name other : String} {cells : List Cell}
    {row position : Nat} {cell : Cell} (hother : t.fields[position]? = some other)
    (hne : other ≠ name) (h : t.cell? row position = some cell) :
    (t.withColumn name cells).cell? row position = some cell := by
  obtain ⟨old, hold, hcell⟩ := Option.bind_eq_some_iff.1 h
  obtain ⟨hrow, -⟩ := List.getElem?_eq_some_iff.1 hold
  obtain ⟨written, hwritten⟩ : ∃ written, (resized cells t.height)[row]? = some written := by
    refine ⟨_, List.getElem?_eq_getElem ?_⟩
    rw [length_resized]
    exact hrow
  cases hname : t.fieldIndex? name with
  | none =>
    obtain ⟨hlt, -⟩ := List.getElem?_eq_some_iff.1 hcell
    simp only [cell?, withColumn, hname, List.getElem?_zipWith, hold, hwritten]
    exact (List.getElem?_append_left hlt).trans hcell
  | some target =>
    have hdiffers : target ≠ position := by
      intro heq
      obtain ⟨hlt, hat, -⟩ := List.findIdx?_eq_some_iff_getElem.1 hname
      rw [← heq, List.getElem?_eq_getElem hlt, beq_iff_eq.1 hat, Option.some.injEq] at hother
      exact hne hother.symm
    simp only [cell?, withColumn, hname, List.getElem?_zipWith, hold, hwritten]
    exact (List.getElem?_set_ne hdiffers).trans hcell

/-- Writing a column widens a table. -/
theorem widens_withColumn (t : Table) (name : String) (cells : List Cell) :
    t.Widens (t.withColumn name cells) [name] where
  fields := by
    have hmem : t.fields.contains name = t.hasField name := by
      rw [Bool.eq_iff_iff, List.contains_iff_mem, hasField_iff_mem]
    rw [fields_withColumn, List.foldl_cons, List.foldl_nil, Pipeline.withName, hmem]
  height := height_withColumn t name cells
  cells position other hother hne row cell hcell :=
    cell?_withColumn hother (by simpa using hne) hcell

end Table

/-! ### Steps -/

namespace Pipeline

variable {defaultMaxBins : Nat} {dimensions : List String}

/-- A state has come from another by bin steps with some outputs. -/
structure State.Widens (s s' : State) (outs : List String) : Prop where
  /-- The columns under the outputs are written. -/
  table : s.table.Widens s'.table outs
  /-- The outputs count as binned, in the order of first writing. -/
  binned : s'.binned = outs.foldl withName s.binned
  /-- The grouping is that of the aggregates before. -/
  groupBy : s'.groupBy = s.groupBy
  /-- There was no aggregate. -/
  anyAggregate : s'.anyAggregate = s.anyAggregate

/-- One bin step. -/
theorem widens_of_next {s s' : State} {step : BinStep}
    (h : s.next defaultMaxBins dimensions (.bin step) = .ok s') : s.Widens s' [step.out] := by
  obtain ⟨labels, rfl⟩ := exists_of_next_bin h
  exact ⟨Table.widens_withColumn s.table step.out labels, rfl, rfl, rfl⟩

/-- Steps that are no aggregates. -/
theorem widens_of_foldlM {steps : List Step} (hsteps : ∀ step, .aggregate step ∉ steps)
    {s s' : State} (h : steps.foldlM (State.next defaultMaxBins dimensions) s = .ok s') :
    s.Widens s' (steps.map Step.out) := by
  induction steps generalizing s with
  | nil =>
    cases h
    exact ⟨.refl _, rfl, rfl, rfl⟩
  | cons step steps ih =>
    rw [List.foldlM_cons, bind_eq_ok_iff] at h
    obtain ⟨mid, hmid, h⟩ := h
    cases step with
    | aggregate step => exact absurd List.mem_cons_self (hsteps step)
    | bin step =>
      have hfirst := widens_of_next hmid
      have hrest := ih (fun later hmem => hsteps later (List.mem_cons_of_mem _ hmem)) h
      refine ⟨hfirst.table.trans hrest.table, ?_, hrest.groupBy.trans hfirst.groupBy,
        hrest.anyAggregate.trans hfirst.anyAggregate⟩
      rw [hrest.binned, hfirst.binned]
      rfl

/-- Steps with an aggregate have a last one. -/
theorem exists_last_aggregate {steps : List Step} (h : ∃ step, .aggregate step ∈ steps) :
    ∃ before step after, steps = before ++ .aggregate step :: after ∧
      ∀ later, .aggregate later ∉ after := by
  induction steps with
  | nil =>
    obtain ⟨step, hmem⟩ := h
    cases hmem
  | cons first steps ih =>
    by_cases hrest : ∃ step, .aggregate step ∈ steps
    · obtain ⟨before, step, after, rfl, hlast⟩ := ih hrest
      exact ⟨first :: before, step, after, rfl, hlast⟩
    · obtain ⟨step, hmem⟩ := h
      rcases List.mem_cons.1 hmem with rfl | hmem
      · exact ⟨[], step, steps, rfl, fun later hlater => hrest ⟨later, hlater⟩⟩
      · exact absurd ⟨step, hmem⟩ hrest

/-- The result of an aggregate is no group key, so its fields differ. -/
theorem nodup_inferredGroupBy_append (s : State) (step : AggregateStep)
    (dimensions : List String) : (inferredGroupBy s step dimensions ++ [step.out]).Nodup := by
  rw [← List.concat_eq_append]
  refine (nodup_eraseDups _).concat fun hmem => ?_
  obtain ⟨-, hne, -⟩ := mayGroup_iff.1 (mem_inferredGroupBy.1 hmem).1
  exact hne rfl

/-! ### Runs -/

/-- What a run without aggregates leads to. -/
structure OnlyBins (t : Table) (steps : List Step) (o : Outcome) : Prop where
  /-- There are as many rows. -/
  height : o.table.height = t.height
  /-- The fields stay in their places, and each new output comes after them
      once, in the order of first writing. -/
  fields : o.table.fields =
    t.fields ++ ((steps.map Step.out).filter fun out => !t.fields.contains out).eraseDups
  /-- Columns that no step writes keep their cells. -/
  cells : ∀ position name, t.fields[position]? = some name → (∀ step ∈ steps, step.out ≠ name) →
    ∀ row cell, t.cell? row position = some cell → o.table.cell? row position = some cell
  /-- The grouping is the outputs in the order of first writing. -/
  groupBy : o.groupBy = (steps.map Step.out).eraseDups

/-- What a run leads to whose last aggregate is `step`, run in the state `s` and
    followed by the bin steps `after`. -/
structure EndsGrouped (dimensions : List String) (s : State) (step : AggregateStep)
    (after : List Step) (o : Outcome) : Prop where
  /-- The grouping is that of the aggregate. -/
  groupBy : o.groupBy = inferredGroupBy s step dimensions
  /-- The fields are the group keys, the result and the outputs that are new
      after them, in the order of first writing. -/
  fields : o.table.fields = o.groupBy ++ [step.out] ++
    ((after.map Step.out).filter fun out => !(o.groupBy ++ [step.out]).contains out).eraseDups
  /-- No field is repeated. -/
  nodup : o.table.fields.Nodup
  /-- There are as many rows as the aggregate gave. -/
  height : ∃ reduced, s.table.aggregated step o.groupBy = .ok reduced ∧
    o.table.height = reduced.height

variable {t : Table} {steps : List Step} {o : Outcome}

theorem onlyBins_of_run (hsteps : ∀ step, .aggregate step ∉ steps)
    (h : run defaultMaxBins t steps dimensions = .ok o) : OnlyBins t steps o := by
  obtain ⟨s, hs, rfl⟩ := run_eq_ok_iff.1 h
  have hwidens := widens_of_foldlM hsteps hs
  refine ⟨hwidens.table.height, ?_, ?_, ?_⟩
  · exact hwidens.table.fields.trans (foldl_withName _ _)
  · intro position name hname hother
    apply hwidens.table.cells position name hname
    intro hmem
    obtain ⟨step, hstep, hout⟩ := List.mem_map.1 hmem
    exact hother step hstep hout
  · have hnone : s.anyAggregate = false := hwidens.anyAggregate
    have hbinned : s.binned = (steps.map Step.out).foldl withName [] := hwidens.binned
    simp only [State.outcome, hnone, hbinned, foldl_withName]
    simp

/-- The last aggregate of a run starts the table anew, and the bin steps after
    it widen it. -/
theorem exists_reduced_of_run {before after : List Step} {step : AggregateStep}
    (hlast : ∀ later, .aggregate later ∉ after)
    (h : run defaultMaxBins t (before ++ .aggregate step :: after) dimensions = .ok o) :
    ∃ s reduced, before.foldlM (State.next defaultMaxBins dimensions) (State.initial t) = .ok s ∧
      o.groupBy = inferredGroupBy s step dimensions ∧
      s.table.aggregated step o.groupBy = .ok reduced ∧
      reduced.Widens o.table (after.map Step.out) := by
  obtain ⟨s', hs', rfl⟩ := run_eq_ok_iff.1 h
  rw [List.foldlM_append, bind_eq_ok_iff] at hs'
  obtain ⟨s, hs, hs'⟩ := hs'
  rw [List.foldlM_cons, bind_eq_ok_iff] at hs'
  obtain ⟨mid, hmid, hs'⟩ := hs'
  obtain ⟨reduced, hreduced, hmid⟩ := bind_eq_ok_iff.1 hmid
  cases hmid
  have hwidens := widens_of_foldlM hlast hs'
  have hany : s'.anyAggregate = true := hwidens.anyAggregate
  have hgroupBy : s'.outcome.groupBy = inferredGroupBy s step dimensions := by
    simp only [State.outcome, hany, if_true]
    exact hwidens.groupBy
  refine ⟨s, reduced, hs, hgroupBy, ?_, hwidens.table⟩
  rw [hgroupBy]
  exact hreduced

theorem endsGrouped_of_run (haggregate : ∃ step, .aggregate step ∈ steps)
    (h : run defaultMaxBins t steps dimensions = .ok o) :
    ∃ before step after s, steps = before ++ .aggregate step :: after ∧
      (∀ later, .aggregate later ∉ after) ∧
      before.foldlM (State.next defaultMaxBins dimensions) (State.initial t) = .ok s ∧
      EndsGrouped dimensions s step after o := by
  obtain ⟨before, step, after, rfl, hlast⟩ := exists_last_aggregate haggregate
  obtain ⟨s, reduced, hs, hgroupBy, hreduced, hwidens⟩ := exists_reduced_of_run hlast h
  refine ⟨before, step, after, s, rfl, hlast, hs, ?_⟩
  have hfields : o.table.fields = (after.map Step.out).foldl withName (o.groupBy ++ [step.out]) := by
    obtain ⟨f, input, -, -, rfl⟩ := Table.exists_of_aggregated_eq_ok hreduced
    exact hwidens.fields
  refine ⟨hgroupBy, ?_, ?_, reduced, hreduced, hwidens.height⟩
  · rw [hfields, foldl_withName]
  · rw [hfields, hgroupBy]
    exact nodup_foldl_withName (nodup_inferredGroupBy_append s step dimensions) _

/-- The grouping has no repetitions, and its names are fields of the table. -/
theorem groupBy_of_run (h : run defaultMaxBins t steps dimensions = .ok o) :
    o.groupBy.Nodup ∧ ∀ field ∈ o.groupBy, o.table.hasField field = true := by
  by_cases haggregate : ∃ step, .aggregate step ∈ steps
  · obtain ⟨before, step, after, s, -, -, -, hends⟩ := endsGrouped_of_run haggregate h
    refine ⟨?_, fun field hmem => ?_⟩
    · rw [hends.groupBy]
      exact nodup_eraseDups _
    · rw [Table.hasField_iff_mem, hends.fields]
      exact List.mem_append_left _ (List.mem_append_left _ hmem)
  · have hbins := onlyBins_of_run (fun step hmem => haggregate ⟨step, hmem⟩) h
    refine ⟨?_, fun field hmem => ?_⟩
    · rw [hbins.groupBy]
      exact nodup_eraseDups _
    · rw [hbins.groupBy, List.mem_eraseDups] at hmem
      rw [Table.hasField_iff_mem, hbins.fields, ← foldl_withName, mem_foldl_withName]
      exact .inr hmem

/-- What a run leads to. The grouping has no repetitions, and its names are
    fields of the table; the aggregated fields are those of the table that an
    aggregate wrote last. A run without aggregates only adds columns, and any
    other run ends with the groups of its last aggregate. -/
theorem outcome_of_run (h : run defaultMaxBins t steps dimensions = .ok o) :
    (o.groupBy.Nodup ∧ ∀ field ∈ o.groupBy, o.table.hasField field = true) ∧
      (∀ field, field ∈ o.aggregated ↔
        o.table.hasField field = true ∧ AggregateWroteLast steps field) ∧
      ((∀ step, .aggregate step ∉ steps) → OnlyBins t steps o) ∧
      ((∃ step, .aggregate step ∈ steps) →
        ∃ before step after s, steps = before ++ .aggregate step :: after ∧
          (∀ later, .aggregate later ∉ after) ∧
          before.foldlM (State.next defaultMaxBins dimensions) (State.initial t) = .ok s ∧
          EndsGrouped dimensions s step after o) := by
  refine ⟨groupBy_of_run h, mem_aggregated_of_run h, fun hsteps => ?_, fun haggregate => ?_⟩
  · exact onlyBins_of_run hsteps h
  · exact endsGrouped_of_run haggregate h

/-- Rows in which two columns share a name. -/
def namedTwice : Table :=
  ⟨["foo", "baz", "foo"], [[.num 1.0, .text "A", .null], [.num 5.0, .text "B", .bool true]]⟩

/-- Count by buckets, and put the counts into buckets. -/
def bucketSizes : List Step :=
  [.bin ⟨"foo", "bucket", none, none⟩, .aggregate ⟨"count", none, "n"⟩,
    .bin ⟨"n", "size", none, none⟩]

/-- Neither column of the shared name is left, and the sizes come last. -/
theorem outcome_of_run_of_sizes :
    ∃ o, run 10 namedTwice bucketSizes ["baz", "n"] = .ok o ∧
      o.table.fields = ["bucket", "baz", "n", "size"] ∧ o.table.fields.Nodup ∧
      o.groupBy = ["bucket", "baz"] ∧ o.groupBy.Nodup ∧
      ∃ before step after s, bucketSizes = before ++ .aggregate step :: after ∧
        EndsGrouped ["baz", "n"] s step after o := by
  obtain ⟨o, hmem, hfields, hgroupBy⟩ :
      ∃ o ∈ (run 10 namedTwice bucketSizes ["baz", "n"]).toOption,
        o.table.fields = ["bucket", "baz", "n", "size"] ∧ o.groupBy = ["bucket", "baz"] := by
    decide +kernel
  have hrun := eq_ok_of_mem_toOption hmem
  obtain ⟨⟨hnodup, -⟩, -, -, haggregates⟩ := outcome_of_run hrun
  obtain ⟨before, step, after, s, hsplit, -, -, hends⟩ :=
    haggregates ⟨⟨"count", none, "n"⟩, by simp [bucketSizes]⟩
  exact ⟨o, hrun, hfields, hends.nodup, hgroupBy, hnodup, before, step, after, s, hsplit, hends⟩

end Pipeline

end PlotGrammar
