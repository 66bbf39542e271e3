import PlotGrammar.Proofs.Binning.Search
import PlotGrammar.Proofs.Evaluation.Traversal
import PlotGrammar.Proofs.Pipeline.Histories

/-! # Whether a view compiles does not depend on the data

  Without limits a view fails on a table or not by the fields of the table
  alone, as long as there is a row and compiling gives a result at all
  (`compile_eq_error_iff`). The cells decide about that: some make the search for
  a width endless, or a count of buckets too large (`not_compile_eq_error_iff`).

  The proof runs the evaluation on two tables side by side:

  - `SameShape` relates tables with the same fields and with rows; steps and
    panels keep it (`agree_run`, `SameShape.filterEq`).
  - The panels of a facet may differ in number. There is at least one on
    either side, and any two of them fail alike, so the facets do
    (`agree_evaluate`).
-/

namespace PlotGrammar

/-! ### Tables -/

/-- Two tables have the same fields, and both have rows. -/
structure SameShape (t t' : Table) : Prop where
  /-- The fields are the same. -/
  fields : t.fields = t'.fields
  /-- The first table has rows. -/
  rows_left : t.rows ≠ []
  /-- The second table has rows. -/
  rows_right : t'.rows ≠ []

namespace SameShape

variable {t t' : Table}

theorem hasField (h : SameShape t t') (name : String) : t.hasField name = t'.hasField name :=
  Table.hasField_congr h.fields name

theorem withColumn (h : SameShape t t') (name : String) (cells cells' : List Cell) :
    SameShape (t.withColumn name cells) (t'.withColumn name cells') where
  fields := by rw [Table.fields_withColumn, Table.fields_withColumn, h.hasField, h.fields]
  rows_left := Table.rows_withColumn_ne_nil h.rows_left name cells
  rows_right := Table.rows_withColumn_ne_nil h.rows_right name cells'

theorem reduced (h : SameShape t t') (f : AggregateFunction) (input : Option Nat) (out : String)
    (groupBy : List String) :
    SameShape (t.reduced f input out groupBy) (t'.reduced f input out groupBy) where
  fields := rfl
  rows_left := Table.rows_reduced_ne_nil h.rows_left f input out groupBy
  rows_right := Table.rows_reduced_ne_nil h.rows_right f input out groupBy

/-- Panels of two cells, each from its own table, have the same shape. -/
theorem filterEq (h : SameShape t t') {field : String} {cells cells' : List Cell}
    (hcells : t.distinct? field = some cells) (hcells' : t'.distinct? field = some cells')
    {cell cell' : Cell} (hcell : cell ∈ cells) (hcell' : cell' ∈ cells') :
    SameShape (t.filterEq field cell) (t'.filterEq field cell') where
  fields := by rw [Table.fields_filterEq, Table.fields_filterEq, h.fields]
  rows_left := Table.rows_filterEq_ne_nil hcells hcell
  rows_right := Table.rows_filterEq_ne_nil hcells' hcell'

/-- A bin step looks only for its field, if it gives a result. -/
theorem agree_binned (h : SameShape t t') (step : BinStep) (defaultMaxBins : Nat) :
    AgreeIfGiven SameShape (t.binned step defaultMaxBins) (t'.binned step defaultMaxBins) := by
  intro hgiven hgiven'
  have hfield := h.hasField step.field
  rcases Table.binned_cases t step defaultMaxBins with
    ⟨hmissing, heq⟩ | ⟨hfound, ⟨-, cause, -, heq⟩ | ⟨labels, heq⟩⟩
  · rcases Table.binned_cases t' step defaultMaxBins with ⟨-, heq'⟩ | ⟨hfound', -⟩
    · rw [heq, heq']
      exact .error _
    · rw [hmissing, hfound'] at hfield
      cases hfield
  · exact absurd heq (hgiven _ _)
  · rcases Table.binned_cases t' step defaultMaxBins with
      ⟨hmissing', -⟩ | ⟨-, ⟨-, cause, -, heq'⟩ | ⟨labels', heq'⟩⟩
    · rw [hfound, hmissing'] at hfield
      cases hfield
    · exact absurd heq' (hgiven' _ _)
    · -- The labels differ, but the tables keep their shape.
      rw [heq, heq']
      exact .ok (h.withColumn step.out labels labels')

/-- An aggregate looks only for its function and its field. -/
theorem agree_aggregated (h : SameShape t t') (step : AggregateStep) (groupBy : List String) :
    Agree SameShape (t.aggregated step groupBy) (t'.aggregated step groupBy) := by
  have hinput : t.inputIndex? step = t'.inputIndex? step := by
    unfold Table.inputIndex?
    cases step.field with
    | none => rfl
    | some field => simp only [Table.fieldIndex?_congr h.fields]
  unfold Table.aggregated
  cases AggregateFunction.ofName? step.function with
  | none => exact .error _
  | some f =>
    rw [hinput]
    refine .bind_same fun input _ => ?_
    exact .ok (h.reduced f input step.out groupBy)

end SameShape

/-! ### Steps -/

namespace Pipeline

/-- Two states have tables of the same shape and the same lists of names. -/
structure Alike (s s' : State) : Prop where
  /-- The tables have the same shape. -/
  table : SameShape s.table s'.table
  /-- The same fields count as aggregated. -/
  aggregated : s.aggregated = s'.aggregated
  /-- The same fields count as binned. -/
  binned : s.binned = s'.binned

namespace Alike

variable {s s' : State}

/-- Alike states lead to the same grouping. -/
theorem inferredGroupBy_eq (h : Alike s s') (step : AggregateStep) (dimensions : List String) :
    inferredGroupBy s step dimensions = inferredGroupBy s' step dimensions := by
  have hmay : mayGroup s.table step = mayGroup s'.table step := by
    funext field
    unfold mayGroup
    rw [h.table.hasField]
  unfold inferredGroupBy
  rw [h.aggregated, h.binned, hmay]

/-- Alike states fail alike in the next step or stay alike. -/
theorem agree_next (h : Alike s s') (defaultMaxBins : Nat) (dimensions : List String)
    (step : Step) :
    AgreeIfGiven Alike (s.next defaultMaxBins dimensions step)
      (s'.next defaultMaxBins dimensions step) := by
  cases step with
  | bin step =>
    refine (h.table.agree_binned step defaultMaxBins).bind fun table table' htable => ?_
    exact Agree.ifGiven <| .ok ⟨htable, by rw [h.aggregated], by rw [h.binned]⟩
  | aggregate step =>
    simp only [State.next]
    rw [h.inferredGroupBy_eq]
    refine Agree.ifGiven <| (h.table.agree_aggregated step _).bind fun table table' htable => .ok ?_
    -- What is kept of either list depends on the fields of the new table.
    have hfields : table.hasField = table'.hasField := funext htable.hasField
    exact ⟨htable, by rw [h.aggregated, hfields], by rw [h.binned, hfields]⟩

end Alike

/-- The steps of a node fail alike over tables of the same shape, or lead to
    such tables. -/
theorem agree_run {t t' : Table} (h : SameShape t t') (defaultMaxBins : Nat) (steps : List Step)
    (dimensions : List String) :
    AgreeIfGiven (fun o o' => SameShape o.table o'.table) (run defaultMaxBins t steps dimensions)
      (run defaultMaxBins t' steps dimensions) := by
  have hinitial : Alike (State.initial t) (State.initial t') := ⟨h, rfl, rfl⟩
  unfold run
  refine (AgreeIfGiven.foldlM (fun s s' step _ hs => ?_) hinitial).bind fun s s' hs => ?_
  · exact hs.agree_next defaultMaxBins dimensions step
  · exact Agree.ifGiven (.ok hs.table)

end Pipeline

/-! ### Nodes -/

/-- A definition resolves or not by the fields of the table. -/
theorem agree_resolve {t t' : Table} (h : t.fields = t'.fields) (inherited : Channels)
    (own : Encoding) :
    Agree (fun _ _ => True) (resolve t inherited own) (resolve t' inherited own) := by
  have hdefinition : ∀ d : Definition,
      Agree (fun _ _ => True) (d.resolve t) (d.resolve t') := by
    intro d
    cases d with
    | literal value => exact .ok trivial
    | field name type =>
      rw [Definition.resolve, Definition.resolve, Table.hasField_congr h]
      by_cases hfield : t'.hasField name = true
      · rw [if_pos hfield, if_pos hfield]
        exact .ok trivial
      · rw [if_neg hfield, if_neg hfield]
        exact .error _
  exact (ChannelMap.agree_mapM fun _ d _ => hdefinition d).bind fun _ _ _ => .ok trivial

/-- What two preparations of a node over tables of the same shape have in
    common. -/
structure SamePlan (head : ViewHead) (p p' : Pipeline.Outcome × ResolvedEncoding) : Prop where
  /-- The tables have the same shape. -/
  table : SameShape p.1.table p'.1.table
  /-- Either encoding has the layout of the node. -/
  layout_left : p.2.layout = head.encoding.layout
  layout_right : p'.2.layout = head.encoding.layout
  /-- Either encoding binds fields of its table. -/
  fields_left : p.2.FieldsIn p.1.table
  fields_right : p'.2.FieldsIn p'.1.table

theorem agree_prepare {t t' : Table} (h : SameShape t t') (config : Config) (inherited : Channels)
    (head : ViewHead) :
    AgreeIfGiven (SamePlan head) (prepare config t inherited head)
      (prepare config t' inherited head) := by
  unfold prepare
  refine (Pipeline.agree_run h _ _ _).bind fun o o' ho => ?_
  have hresolve := (agree_resolve ho.fields inherited head.encoding).with_ok
  refine Agree.ifGiven <| hresolve.bind fun e e' he => .ok ?_
  obtain ⟨-, he, he'⟩ := he
  exact ⟨ho, (channels_of_resolve he).2, (channels_of_resolve he').2, fieldsIn_of_resolve he,
    fieldsIn_of_resolve he'⟩

/-- Without limits nothing but the layout directive can refuse a mark. -/
theorem agree_drawMark {config : Config} (hlimits : config.limits = {}) {head : ViewHead}
    {p p' : Pipeline.Outcome × ResolvedEncoding} (h : SamePlan head p p') (path : NodePath)
    (mark : MarkKind) :
    Agree (fun _ _ => True) (drawMark config path mark p.2 p.1)
      (drawMark config path mark p'.2 p'.1) := by
  -- The groups differ, but all fields are there, so forming them succeeds.
  obtain ⟨groups, hgroups⟩ := exists_markGroups h.fields_left
  obtain ⟨groups', hgroups'⟩ := exists_markGroups h.fields_right
  unfold drawMark
  rw [h.layout_left, h.layout_right, hlimits, hgroups, hgroups']
  refine .bind_same fun composition _ => ?_
  exact .ok trivial

/-- What two facet plans have in common: panels of either side have the same
    shape, and there are some. -/
structure SamePanels (t t' : Table) (field : String) (p p' : Composition × List Cell) : Prop where
  /-- There is a panel on either side. -/
  ne_nil_left : p.2 ≠ []
  ne_nil_right : p'.2 ≠ []
  /-- Any two panels have the same shape. -/
  panels : ∀ cell ∈ p.2, ∀ cell' ∈ p'.2,
    SameShape (t.filterEq field cell) (t'.filterEq field cell')

theorem agree_facetPlan {config : Config} (hlimits : config.limits = {}) {t t' : Table}
    (h : SameShape t t') (layout : Option Layout) (field : String) :
    Agree (SamePanels t t' field) (facetPlan config t layout field)
      (facetPlan config t' layout field) := by
  unfold facetPlan
  refine .bind_same fun composition _ => ?_
  rw [hlimits]
  cases hcells : t.distinct? field with
  | none =>
    have hfield := Table.distinct?_eq_none_iff.1 hcells
    rw [h.hasField] at hfield
    rw [Table.distinct?_eq_none_iff.2 hfield]
    exact .error _
  | some cells =>
    cases hcells' : t'.distinct? field with
    | none =>
      have hfield := Table.distinct?_eq_none_iff.1 hcells'
      rw [← h.hasField] at hfield
      rw [Table.distinct?_eq_none_iff.2 hfield] at hcells
      cases hcells
    | some cells' =>
      refine .ok ⟨Table.distinct?_ne_nil h.rows_left hcells,
        Table.distinct?_ne_nil h.rows_right hcells', ?_⟩
      exact fun cell hcell cell' hcell' => h.filterEq hcells hcells' hcell hcell'

/-! ### Views -/

/-- Without limits a view fails alike over tables of the same shape, if both
    evaluations give a result. -/
theorem agree_evaluate {config : Config} (hlimits : config.limits = {}) (v : View) {t t' : Table}
    (h : SameShape t t') (inherited : Channels) (path : NodePath) :
    AgreeIfGiven (fun _ _ => True) (evaluate config t inherited path v)
      (evaluate config t' inherited path v) := by
  -- The tables change on the way down; all that is kept of them is their shape.
  induction v generalizing t t' inherited path with
  | mark head kind =>
    rw [evaluate, evaluate]
    refine AgreeIfGiven.locatedAt ((agree_prepare h config inherited head).bind ?_) path
    intro p p' hplan
    exact (agree_drawMark hlimits hplan path kind).ifGiven
  | nested head child ih =>
    rw [evaluate, evaluate]
    refine ((agree_prepare h config inherited head).locatedAt path).bind ?_
    intro p p' hplan
    cases hdetail : head.encoding.detailField? with
    | some field =>
      refine ((agree_facetPlan hlimits hplan.table _ field).locatedAt path).ifGiven.bind ?_
      intro plan plan' hpanels
      -- There may be more panels on one side, but no two of them differ in failing.
      refine (AgreeIfGiven.mapM_of_ne_nil hpanels.ne_nil_left hpanels.ne_nil_right ?_).bind ?_
      · intro cell hcell cell' hcell'
        exact (ih (hpanels.panels cell hcell cell' hcell') _ _).bind fun _ _ _ =>
          Agree.ifGiven (.ok trivial)
      · exact fun _ _ _ => Agree.ifGiven (.ok trivial)
    | none =>
      refine AgreeIfGiven.bind_same fun composition => ?_
      exact (ih hplan.table _ _).bind fun _ _ _ => Agree.ifGiven (.ok trivial)
  | concat head children ih =>
    rw [evaluate, evaluate]
    refine ((agree_prepare h config inherited head).locatedAt path).bind ?_
    intro p p' hplan
    refine AgreeIfGiven.bind_same fun composition => ?_
    have hnodes : AgreeIfGiven (List.Forall₂ fun _ _ => True)
        (evaluateAll config p.1.table (inherit inherited head.encoding) path 0 children)
        (evaluateAll config p'.1.table (inherit inherited head.encoding) path 0 children) := by
      rw [evaluateAll_eq_mapM, evaluateAll_eq_mapM]
      refine AgreeIfGiven.mapM fun child hchild => ?_
      exact ih child.1 (List.fst_mem_of_mem_zipIdx hchild) hplan.table _ (path.child child.2)
    exact hnodes.bind fun _ _ _ => Agree.ifGiven (.ok trivial)

/-- Without limits the cells of a table, the number of its rows and their order
    never decide whether a view compiles, nor what the failure is, if compiling
    gives a result for both tables. -/
theorem compile_eq_error_iff {config : Config} (hlimits : config.limits = {}) (v : View)
    {t t' : Table} (hfields : t.fields = t'.fields) (ht : t.rows ≠ []) (ht' : t'.rows ≠ [])
    (hgiven : IsGiven (compile config v t)) (hgiven' : IsGiven (compile config v t'))
    (e : Failure) : compile config v t = .error e ↔ compile config v t' = .error e := by
  have hcompile : AgreeIfGiven (fun _ _ => True) (compile config v t) (compile config v t') := by
    unfold compile
    refine AgreeIfGiven.bind_same fun _ => ?_
    have hevaluate := agree_evaluate hlimits v ⟨hfields, ht, ht'⟩ .empty .root
    exact hevaluate.bind fun _ _ _ => Agree.ifGiven (.ok trivial)
  exact (hcompile hgiven hgiven').error_iff e

/-- A facet whose panels color their points by a field. -/
def panelsColoredBy (field : String) : View :=
  .nested { encoding := { detail := some (.field "site" none) } }
    (.mark { encoding := { color := some (.field field none) } } .point)

/-- A missing field is refused in the first panel, over one panel as over two. -/
theorem compile_eq_error_of_missing_field :
    compile {} (panelsColoredBy "kind") ⟨["site"], [[.text "A"]]⟩ =
        .error (.unknownField (.child .root 0) "kind") ∧
      IsGiven (compile {} (panelsColoredBy "kind") ⟨["site"], [[.text "B"], [.null], [.text "B"]]⟩) ∧
      compile {} (panelsColoredBy "kind") ⟨["site"], [[.text "B"], [.null], [.text "B"]]⟩ =
        .error (.unknownField (.child .root 0) "kind") := by
  have hone : compile {} (panelsColoredBy "kind") ⟨["site"], [[.text "A"]]⟩ =
      .error (.unknownField (.child .root 0) "kind") := rfl
  have hgiven : IsGiven (compile {} (panelsColoredBy "kind") ⟨["site"], [[.text "A"]]⟩) :=
    fun _ _ habort => nomatch hone.symm.trans habort
  have hgiven' : IsGiven (compile {} (panelsColoredBy "kind")
      ⟨["site"], [[.text "B"], [.null], [.text "B"]]⟩) := fun _ _ habort => nomatch habort
  refine ⟨hone, hgiven', ?_⟩
  exact (compile_eq_error_iff rfl _ rfl (List.cons_ne_nil _ _) (List.cons_ne_nil _ _) hgiven hgiven'
    _).1 hone

/-- Points of binned numbers, and a count of a field that does not exist. -/
def countedBuckets : View :=
  .mark { steps := [.bin ⟨"foo", "b", none, none⟩, .aggregate ⟨"count", some "nope", "n"⟩] } .point

/-- The cells decide whether the missing field is refused: a span that is
    infinite has no number of buckets, and one of the least doubles no width,
    since the search for it goes on for ever. -/
theorem not_compile_eq_error_iff :
    compile {} countedBuckets ⟨["foo"], [[.num 1.0]]⟩ = .error (.unknownField .root "nope") ∧
      compile {} countedBuckets ⟨["foo"], [[.num (-1e308)], [.num 1e308]]⟩ =
        .error (.aborted .root .overflow) ∧
      compile {} countedBuckets ⟨["foo"], [[.num 0.0], [.num 5e-324]]⟩ =
        .error (.aborted .root .endless) ∧
      ∀ times, Float.ofNat 10 < Binning.parts 5e-324
        (Binning.tenTimes times (Binning.guess 5e-324 (Float.ofNat 10))) := by
  refine ⟨by decide +kernel, by decide +kernel, by decide +kernel, ?_⟩
  have hsearch : Binning.niceWidth 5e-324 10 = .error .endless := by decide +kernel
  exact ((Binning.niceWidth_eq_error_iff (by decide) rfl).1 hsearch).2.2.2

end PlotGrammar
