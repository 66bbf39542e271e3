import PlotGrammar.Proofs.Evaluation.Traversal
import PlotGrammar.Proofs.Pipeline.Histories
import PlotGrammar.Proofs.Scene
import PlotGrammar.Proofs.Table.Removal
import PlotGrammar.Proofs.View.Mentions

/-! # Fields that a view does not mention

  A field that a view does not mention cannot matter: with and without it the
  view fails alike, or gives the same scene but for the field in the tables of
  the leaves (`compile_withColumn`).

  The proof runs the evaluation on a table and on the table without the field.
  No step looks at the field (`State.next_without`), so the tables of a node
  keep differing by the field alone until an aggregate drops it. Neither the
  channels of a node nor its panels and groups see the field.
-/

namespace PlotGrammar

variable {u : String}

/-! ### Steps -/

namespace Pipeline

/-- The state with its table without a field. -/
def State.without (s : State) (u : String) : State := { s with table := s.table.without u }

/-- The outcome with its table without a field. -/
def Outcome.without (o : Outcome) (u : String) : Outcome := { o with table := o.table.without u }

/-- A state that does not count on a field: its rows hold a cell under the
    field, and the field is no group key. -/
structure Spares (u : String) (s : State) : Prop where
  /-- The rows hold a cell under the field, if the table has it. -/
  covers : s.table.Covers u
  /-- The field is not binned. -/
  binned : u ∉ s.binned
  /-- The field was not a group key of the last aggregate. -/
  groupBy : u ∉ s.groupBy

variable {s s' : State} {defaultMaxBins : Nat} {dimensions : List String}

/-- The grouping is inferred as without the field. -/
theorem inferredGroupBy_without (h : Spares u s) (hdimensions : u ∉ dimensions)
    (step : AggregateStep) :
    inferredGroupBy (s.without u) step dimensions = inferredGroupBy s step dimensions := by
  have hkeys : (s.binned ++ dimensions.filter fun d => !s.aggregated.contains d).filter
        (mayGroup (s.table.without u) step) =
      (s.binned ++ dimensions.filter fun d => !s.aggregated.contains d).filter
        (mayGroup s.table step) := by
    refine List.filter_congr fun name hmem => ?_
    have hne : name ≠ u := by
      intro heq
      subst heq
      rcases List.mem_append.1 hmem with hbinned | hdimension
      · exact h.binned hbinned
      · exact hdimensions (List.mem_filter.1 hdimension).1
    unfold mayGroup
    rw [Table.hasField_without hne]
  exact congrArg List.eraseDups hkeys

theorem not_mem_inferredGroupBy (h : Spares u s) (hdimensions : u ∉ dimensions)
    (step : AggregateStep) : u ∉ inferredGroupBy s step dimensions := by
  intro hmem
  obtain ⟨-, hbinned | ⟨hdimension, -⟩⟩ := mem_inferredGroupBy.1 hmem
  · exact h.binned hbinned
  · exact hdimensions hdimension

/-- A step that does not mention the field goes on as without it. -/
theorem State.next_without (h : Spares u s) (hdimensions : u ∉ dimensions) {step : Step}
    (hstep : u ∉ step.mentions) :
    (s.without u).next defaultMaxBins dimensions step =
      (s.next defaultMaxBins dimensions step).map fun s' => s'.without u := by
  cases step with
  | bin step =>
    obtain ⟨hfield, hout⟩ := not_mem_mentions_bin.1 hstep
    rw [next, State.without, Table.binned_without hfield hout h.covers, next]
    cases s.table.binned step defaultMaxBins with
    | error e => rfl
    | ok table => rfl
  | aggregate step =>
    obtain ⟨hfield, hout⟩ := not_mem_mentions_aggregate.1 hstep
    have hgroupBy := not_mem_inferredGroupBy h hdimensions step
    simp only [next]
    rw [inferredGroupBy_without h hdimensions, State.without,
      Table.aggregated_without hgroupBy hfield]
    cases htable : s.table.aggregated step (inferredGroupBy s step dimensions) with
    | error e => rfl
    | ok table =>
      -- The reduced table has lost the field.
      obtain ⟨f, input, -, -, hreduced⟩ := Table.exists_of_aggregated_eq_ok htable
      have hlost : u ∉ table.fields := by
        rw [hreduced, Table.fields_reduced]
        simpa using ⟨hgroupBy, hout.symm⟩
      simp only [bind, Except.bind, Except.map, pure, Except.pure, State.without,
        Table.without_of_not_mem hlost]

/-- It keeps sparing the field. -/
theorem Spares.next (h : Spares u s) (hdimensions : u ∉ dimensions) {step : Step}
    (hstep : u ∉ step.mentions) (hnext : s.next defaultMaxBins dimensions step = .ok s') :
    Spares u s' := by
  cases step with
  | bin step =>
    obtain ⟨-, hout⟩ := not_mem_mentions_bin.1 hstep
    obtain ⟨labels, rfl⟩ := exists_of_next_bin hnext
    refine ⟨h.covers.withColumn hout labels, fun hmem => ?_, h.groupBy⟩
    rcases mem_withName.1 hmem with hbinned | heq
    · exact h.binned hbinned
    · exact hout heq.symm
  | aggregate step =>
    obtain ⟨-, hout⟩ := not_mem_mentions_aggregate.1 hstep
    obtain ⟨table, hfields, rfl⟩ := exists_of_next_aggregate hnext
    have hgroupBy := not_mem_inferredGroupBy h hdimensions step
    have hlost : u ∉ table.fields := by
      rw [hfields]
      simpa using ⟨hgroupBy, hout.symm⟩
    refine ⟨Table.covers_of_not_mem hlost, fun hmem => ?_, hgroupBy⟩
    exact h.binned (List.mem_filter.1 hmem).1

/-- What the outcomes of a run with and without a field have in common. -/
theorem agree_run_without {t : Table} (hcovers : t.Covers u) {steps : List Step}
    (hsteps : ∀ step ∈ steps, u ∉ step.mentions) (hdimensions : u ∉ dimensions) :
    Agree (fun o o' => o = o'.without u ∧ o'.table.Covers u ∧ u ∉ o'.groupBy)
      (run defaultMaxBins (t.without u) steps dimensions)
      (run defaultMaxBins t steps dimensions) := by
  have hfold : Agree (fun s s' => s = s'.without u ∧ Spares u s')
      (steps.foldlM (State.next defaultMaxBins dimensions) (State.initial (t.without u)))
      (steps.foldlM (State.next defaultMaxBins dimensions) (State.initial t)) := by
    apply Agree.foldlM
    · -- One step keeps both the equation and what spares the field.
      intro s s' step hmem ⟨heq, hspares⟩
      subst heq
      refine .of_eq_map (State.next_without hspares hdimensions (hsteps step hmem)) ?_
      exact fun s'' hnext => hspares.next hdimensions (hsteps step hmem) hnext
    · exact ⟨rfl, hcovers, List.not_mem_nil, List.not_mem_nil⟩
  unfold run
  refine hfold.bind fun s s' ⟨heq, hspares⟩ => .ok ⟨?_, hspares.covers, ?_⟩
  · rw [heq]
    rfl
  · unfold State.outcome
    by_cases hany : s'.anyAggregate = true
    · rw [if_pos hany]
      exact hspares.groupBy
    · rw [if_neg hany]
      exact hspares.binned

end Pipeline

/-! ### Channels -/

theorem Definition.resolve_without {t : Table} {d : Definition}
    (h : ∀ declared, d ≠ .field u declared) : d.resolve (t.without u) = d.resolve t := by
  cases d with
  | literal value => rfl
  | field name declared =>
    have hne : name ≠ u := by
      intro heq
      exact h declared (by rw [heq])
    rw [resolve, resolve, Table.hasField_without hne, Table.inferType_without hne]

/-- Channels that do not refer to the field resolve as without it. -/
theorem resolve_without {t : Table} {inherited : Channels} {own : Encoding}
    (h : u ∉ (inherit inherited own).fieldNames) :
    resolve (t.without u) inherited own = resolve t inherited own := by
  have hdefinition : ∀ c d, (inherit inherited own).get? c = some d →
      d.resolve (t.without u) = d.resolve t := by
    intro c d hbound
    apply Definition.resolve_without
    intro declared heq
    rw [heq] at hbound
    exact h (ChannelMap.mem_fieldNames.2 ⟨c, declared, hbound⟩)
  unfold resolve
  rw [ChannelMap.mapM_congr hdefinition]

/-! ### Nodes -/

/-- What a node was prepared to and that does not count on a field. -/
structure Ignores (u : String) (o : Pipeline.Outcome) (e : ResolvedEncoding) : Prop where
  /-- The rows hold a cell under the field, if the table has it. -/
  covers : o.table.Covers u
  /-- The field is no group key. -/
  groupBy : u ∉ o.groupBy
  /-- No channel is bound to the field. -/
  channels : ∀ c type, e.channels.get? c ≠ some (.field u type)

variable {config : Config}

/-- A node that does not mention the field hands down no channel with it. -/
theorem not_mem_fieldNames_inherit {inherited : Channels} (hinherited : u ∉ inherited.fieldNames)
    {head : ViewHead} (hhead : u ∉ head.mentions) :
    u ∉ (inherit inherited head.encoding).fieldNames := by
  intro hmem
  rcases mem_fieldNames_inherit hmem with hmem | hmem
  · exact hinherited hmem
  · exact hhead (List.mem_append_right _ hmem)

/-- What preparing a node with and without a field has in common. -/
theorem agree_prepare_without {t : Table} (hcovers : t.Covers u) {inherited : Channels}
    (hinherited : u ∉ inherited.fieldNames) {head : ViewHead} (hhead : u ∉ head.mentions) :
    Agree (fun p p' => p = (p'.1.without u, p'.2) ∧ Ignores u p'.1 p'.2)
      (prepare config (t.without u) inherited head) (prepare config t inherited head) := by
  have hchannels := not_mem_fieldNames_inherit hinherited hhead
  have hsteps : ∀ step ∈ head.steps, u ∉ step.mentions := by
    intro step hmem hstep
    exact hhead (List.mem_append_left _ (List.mem_flatMap.2 ⟨step, hmem, hstep⟩))
  unfold prepare
  refine (Pipeline.agree_run_without hcovers hsteps hchannels).bind fun o o' ho => ?_
  obtain ⟨rfl, hcovers', hgroupBy⟩ := ho
  rw [Pipeline.Outcome.without, resolve_without hchannels]
  cases hresolve : resolve o'.table inherited head.encoding with
  | error e => exact .error e
  | ok e =>
    refine .ok ⟨rfl, hcovers', hgroupBy, fun c type hbound => ?_⟩
    obtain ⟨-, declared, hdeclared⟩ := field_of_resolve hresolve hbound
    exact hchannels (ChannelMap.mem_fieldNames.2 ⟨c, declared, hdeclared⟩)

/-! ### Marks -/

/-- The node with a field taken away from the tables of its leaves. -/
def SceneNode.without (node : SceneNode) (u : String) : SceneNode :=
  node.mapTables fun t => t.without u

/-- The scene with a field taken away from the tables of its leaves. -/
def Scene.without (scene : Scene) (u : String) : Scene := ⟨scene.root.without u⟩

theorem bind_without {o : Pipeline.Outcome} {b : Binding} (h : ∀ type, b ≠ .field u type)
    (row : List Cell) : b.bind (o.without u) (o.table.rowWithout u row) = b.bind o row := by
  cases b with
  | constant value => rfl
  | field name type =>
    have hne : name ≠ u := by
      intro heq
      exact h type (by rw [heq])
    simp only [Binding.bind, Pipeline.Outcome.without, Table.fieldIndex?_without hne]
    cases hname : o.table.fieldIndex? name with
    | none => rfl
    | some position => simp only [Option.map_some, Table.cellAt_without hne hname]

theorem instanceOf_without {o : Pipeline.Outcome} {e : ResolvedEncoding} (h : Ignores u o e)
    (row : List Cell) (index : Nat) :
    instanceOf (o.without u) e (o.table.rowWithout u row) index = instanceOf o e row index := by
  have hbind : ∀ c b, (e.channels.filter Channel.isVisual).get? c = some b →
      b.bind (o.without u) (o.table.rowWithout u row) = b.bind o row := by
    intro c b hbound
    apply bind_without
    intro type heq
    rw [heq] at hbound
    exact h.channels c type (ChannelMap.get?_of_filter hbound)
  unfold instanceOf
  rw [ChannelMap.mapM_congr hbind]

/-- A class of rows makes the same group as without the field. -/
theorem groupOf_without {o : Pipeline.Outcome} {e : ResolvedEncoding} (h : Ignores u o e)
    (fields : List String) (group : List Cell × List (List Cell × Nat)) :
    groupOf (o.without u) e fields (group.1, group.2.map (Prod.map (o.table.rowWithout u) id)) =
      groupOf o e fields group := by
  have hinstances : (group.2.map (Prod.map (o.table.rowWithout u) id)).mapM
        (fun member => instanceOf (o.without u) e member.1 member.2) =
      group.2.mapM fun member => instanceOf o e member.1 member.2 := by
    rw [List.mapM_map]
    exact mapM_congr fun member _ => instanceOf_without h member.1 member.2
  have hrows : (group.2.map (Prod.map (o.table.rowWithout u) id)).map Prod.snd =
      group.2.map Prod.snd := by
    rw [List.map_map]
    rfl
  unfold groupOf
  rw [hinstances, hrows]

/-- The grouping fields of a mark do not hold the field. -/
theorem not_mem_groupingFields {o : Pipeline.Outcome} {e : ResolvedEncoding} (h : Ignores u o e) :
    u ∉ groupingFields o.groupBy e.detailField? := by
  intro hmem
  cases hdetail : e.detailField? with
  | none =>
    rw [hdetail] at hmem
    exact h.groupBy hmem
  | some field =>
    rw [hdetail, groupingFields, Pipeline.mem_withName] at hmem
    rcases hmem with hmem | heq
    · exact h.groupBy hmem
    · subst heq
      unfold ResolvedEncoding.detailField? at hdetail
      split at hdetail
      · next name type hbound =>
        cases hdetail
        exact h.channels .detail type hbound
      · cases hdetail

/-- A mark has the same groups as without the field. -/
theorem markGroups_without {o : Pipeline.Outcome} {e : ResolvedEncoding} (h : Ignores u o e) :
    markGroups (o.without u) e = markGroups o e := by
  have hgrouping := not_mem_groupingFields h
  have hfields : (groupingFields o.groupBy e.detailField?).filter (o.table.without u).hasField =
      (groupingFields o.groupBy e.detailField?).filter o.table.hasField := by
    refine List.filter_congr fun name hmem => Table.hasField_without ?_
    intro heq
    exact hgrouping (heq ▸ hmem)
  -- The classes are by fields that the table has, all of them other ones.
  have hkept : u ∉ (groupingFields o.groupBy e.detailField?).filter o.table.hasField :=
    fun hmem => hgrouping (List.mem_filter.1 hmem).1
  unfold markGroups
  simp only [Pipeline.Outcome.without, hfields, Table.classes_without hkept, Classes.mapMembers,
    List.mapM_map]
  exact mapM_congr fun group _ => groupOf_without h _ group

/-- Drawing a mark gives the leaf without the field in its table. -/
theorem drawMark_without {o : Pipeline.Outcome} {e : ResolvedEncoding} (h : Ignores u o e)
    (path : NodePath) (mark : MarkKind) :
    drawMark config path mark e (o.without u) =
      (drawMark config path mark e o).map fun node => node.without u := by
  have hheight : (o.without u).table.height = o.table.height := Table.height_without
  unfold drawMark
  rw [markGroups_without h, hheight]
  cases config.settleLayout e.layout false with
  | error e => rfl
  | ok composition =>
    cases checkLimit .markInstances config.limits.maxMarkInstances o.table.height with
    | error e => rfl
    | ok _ =>
      cases markGroups o e with
      | error e => rfl
      | ok groups => rfl

/-! ### Views -/

/-- Children are put in the same places, whatever their tables are. -/
theorem arrange_without (path : NodePath) (e : ResolvedEncoding) (composition : Composition)
    {nodes nodes' : List (Option (String × Cell) × SceneNode)}
    (h : List.Forall₂ (fun node node' => node.1 = node'.1 ∧ node.2 = node'.2.without u)
      nodes nodes') :
    arrange path e composition nodes = (arrange path e composition nodes').without u := by
  have hnodes : nodes = nodes'.map fun node => (node.1, node.2.without u) :=
    eq_map_of_forall₂ (h.imp fun node node' hnode => Prod.ext hnode.1 hnode.2)
  rw [hnodes]
  simp only [arrange, SceneNode.without, SceneNode.mapTables, SceneNode.mapTablesOf_eq_map, plan,
    List.length_map, List.zipWith_map_right, List.map_zipWith]

/-- A facet over another field has the same panels as without the field. -/
theorem facetPlan_without {t : Table} {field : String} (hne : field ≠ u) (layout : Option Layout) :
    facetPlan config (t.without u) layout field = facetPlan config t layout field := by
  unfold facetPlan
  rw [Table.distinct?_without hne]

/-- A view that does not mention the field is evaluated as without it. -/
theorem agree_evaluate_without (config : Config) (v : View) {t : Table} (hcovers : t.Covers u)
    {inherited : Channels} (hinherited : u ∉ inherited.fieldNames) (hview : u ∉ v.mentions)
    (path : NodePath) :
    Agree (fun node node' => node = node'.without u)
      (evaluate config (t.without u) inherited path v) (evaluate config t inherited path v) := by
  -- The table on the right may have lost the field already; then the one on the
  -- left is the same, and nothing below needs to tell the two cases apart.
  induction v generalizing t inherited path with
  | mark head kind =>
    rw [evaluate, evaluate]
    refine Agree.locatedAt ((agree_prepare_without hcovers hinherited hview).bind ?_) path
    rintro p p' ⟨hp, hignores⟩
    subst hp
    exact Agree.iff_eq_map.2 (drawMark_without hignores path kind)
  | nested head child ih =>
    rw [View.mentions, List.mem_append, not_or] at hview
    obtain ⟨hhead, hchild⟩ := hview
    have hchannels := not_mem_fieldNames_inherit hinherited hhead
    rw [evaluate, evaluate]
    refine ((agree_prepare_without hcovers hinherited hhead).locatedAt path).bind ?_
    rintro p p' ⟨hp, hignores⟩
    subst hp
    cases hdetail : head.encoding.detailField? with
    | some field =>
      -- The facet field is mentioned, so it is another one.
      have hne := ViewHead.detailField?_ne hhead hdetail
      simp only [Pipeline.Outcome.without, facetPlan_without hne]
      refine .bind_same fun plan _ => ?_
      have hpanel : ∀ cell ∈ plan.2, Agree (fun node node' => node = node'.without u)
          (evaluate config ((p'.1.table.without u).filterEq field cell)
            (inherit inherited head.encoding) (path.child 0) child)
          (evaluate config (p'.1.table.filterEq field cell)
            (inherit inherited head.encoding) (path.child 0) child) := by
        intro cell _
        rw [Table.filterEq_without hne]
        exact ih (hignores.covers.filterEq cell) hchannels hchild _
      refine (agree_panels hpanel).bind fun panels panels' hpanels => .ok ?_
      exact arrange_without path _ plan.1 hpanels
    | none =>
      refine .bind_same fun composition _ => ?_
      refine (ih hignores.covers hchannels hchild _).bind fun node node' hnode => .ok ?_
      exact arrange_without path _ composition (.cons ⟨rfl, hnode⟩ .nil)
  | concat head children ih =>
    rw [View.mentions, List.mem_append, not_or] at hview
    obtain ⟨hhead, hchildren⟩ := hview
    have hchannels := not_mem_fieldNames_inherit hinherited hhead
    rw [evaluate, evaluate]
    refine ((agree_prepare_without hcovers hinherited hhead).locatedAt path).bind ?_
    rintro p p' ⟨hp, hignores⟩
    subst hp
    refine .bind_same fun composition _ => ?_
    have hnodes : Agree (List.Forall₂ fun node node' => node = node'.without u)
        (evaluateAll config (p'.1.table.without u) (inherit inherited head.encoding) path 0
          children)
        (evaluateAll config p'.1.table (inherit inherited head.encoding) path 0 children) := by
      refine agree_evaluateAll fun child hmem childPath => ?_
      have hchild : u ∉ child.mentions := fun h => hchildren (View.mem_mentionsOf hmem h)
      exact ih child hmem hignores.covers hchannels hchild childPath
    refine hnodes.bind fun nodes nodes' hall => .ok (arrange_without path _ composition ?_)
    rw [List.forall₂_map_left_iff, List.forall₂_map_right_iff]
    exact hall.imp fun node node' hnode => ⟨rfl, hnode⟩

/-- A column that a view does not mention cannot matter. With it and without it
    the view fails alike, or gives the same scene but for the tables of the
    leaves: those that have the column are the others once it is taken away. -/
theorem compile_withColumn {v : View} (hview : u ∉ v.mentions) {t : Table} (hrect : t.Rectangular)
    (hnew : t.hasField u = false) (cells : List Cell) :
    compile config v t =
      (compile config v (t.withColumn u cells)).map fun scene => scene.without u := by
  -- Read the smaller table as the larger one without the column.
  have hcovers : (t.withColumn u cells).Covers u := (hrect.withColumn u cells).covers u
  have hempty : u ∉ (ChannelMap.empty : Channels).fieldNames := by
    intro hmem
    obtain ⟨c, declared, hbound⟩ := ChannelMap.mem_fieldNames.1 hmem
    cases hbound
  have hevaluate : Agree (fun node node' => node = node'.without u)
      (evaluate config t .empty .root v)
      (evaluate config (t.withColumn u cells) .empty .root v) := by
    have hagree := agree_evaluate_without config v hcovers hempty hview .root
    rwa [Table.without_withColumn hrect hnew] at hagree
  apply Agree.iff_eq_map.1
  unfold compile
  refine .bind_same fun _ _ => ?_
  refine hevaluate.bind fun root root' hroot => .ok ?_
  rw [hroot]
  rfl

/-- A count of points for every site. -/
def countsBySite : View :=
  .nested { encoding := { detail := some (.field "site" none) } }
    (.mark
      { steps := [.aggregate ⟨"count", none, "n"⟩], encoding := { y := some (.field "n" none) } }
      .bar)

/-- Some points with their sites. -/
def sites : Table := ⟨["site"], [[.text "A"], [.text "B"], [.text "A"]]⟩

/-- Notes on the points do not change their counts. -/
theorem compile_withColumn_of_notes :
    "note" ∉ countsBySite.mentions ∧
      ∃ scene, compile {} countsBySite sites = .ok scene ∧
        ((compile {} countsBySite (sites.withColumn "note" [.text "dry"])).map fun noted =>
          noted.without "note") = .ok scene := by
  have hview : "note" ∉ countsBySite.mentions := by decide
  have hrect : sites.Rectangular := by
    intro row hrow
    simp only [sites, List.mem_cons, List.not_mem_nil, or_false] at hrow
    rcases hrow with rfl | rfl | rfl <;> rfl
  refine ⟨hview, _, rfl, ?_⟩
  exact (compile_withColumn hview hrect rfl [.text "dry"]).symm

end PlotGrammar
