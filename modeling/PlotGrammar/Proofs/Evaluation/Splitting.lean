import PlotGrammar.Proofs.Evaluation.Inheritance
import PlotGrammar.Proofs.Table.Partition

/-! # Splitting by a field

  Three parts of compiling split the rows of a table by the cells of a field:

  - a facet makes a panel for each different cell of the field, over the rows
    that are filtered for it,
  - a mark whose grouping channel is bound to the field collects its rows into
    groups, in one pass,
  - a count whose only dimension is the field reduces such groups to one row
    each.

  All three come to the same classes in the same order, that of the first
  appearance of their cells (`splits_agree`). The common reference is
  `Table.rowsOf`, the rows of a cell with their numbers.
-/

namespace PlotGrammar

/-- The head of a node that binds the grouping channel to a field and nothing
    else. -/
def groupingBy (field : String) (type : Option FieldType) : ViewHead :=
  { encoding := { detail := some (.field field type) } }

/-- A mark in panels, one for every cell of a field. -/
def panelsBy (field : String) (type : Option FieldType) (kind : MarkKind) : View :=
  .nested (groupingBy field type) (.mark {} kind)

/-- A mark with a group for every cell of a field. -/
def groupsBy (field : String) (type : Option FieldType) (kind : MarkKind) : View :=
  .mark (groupingBy field type) kind

/-- The step that counts the rows of every group. -/
def countAs (out : String) : Step := .aggregate ⟨"count", none, out⟩

/-- A panel, a group of a mark and a row of counts stand for one class of the
    rows of a table, those whose cell under a field is equal to `cell`. -/
structure SameClass (t : Table) (field : String) (cell : Cell) (panel : Placed SceneNode)
    (group : MarkGroup) (counted : List Cell) : Prop where
  /-- The panel knows the cell. -/
  facet : panel.facet = some (field, cell)
  /-- The key of the group is the cell. -/
  key : group.key = [(field, cell)]
  /-- The panel shows the rows that the group lists, in their order. -/
  shows : ∃ leaf, panel.node = .marks leaf ∧ leaf.table.fields = t.fields ∧
    leaf.table.rows.map some = group.rows.map fun row => t.rows[row]?
  /-- The count is that of the rows of the group. -/
  counts : counted = [cell, .num (Float.ofNat group.rows.length)]

section

variable {t : Table} {field : String} {type : Option FieldType} {position : Nat}
  {cells : List Cell}

/-! ### The grouping channel -/

/-- The work at a node whose only channel is the grouping one. -/
theorem exists_prepare_of_grouping (config : Config) {inherited : Channels} {head : ViewHead}
    (hsteps : head.steps = [])
    (hchannels : inherit inherited head.encoding = (groupingBy field type).encoding.channels)
    (hfield : t.hasField field = true) :
    ∃ e, prepare config t inherited head = .ok (⟨t, [], []⟩, e) ∧
      e.detailField? = some field ∧ e.FieldsIn t := by
  have hresolve : ∃ e, resolve t inherited head.encoding = .ok e := by
    rw [exists_resolve_iff, hchannels]
    intro c d name hd hname
    cases c with
    | detail =>
      cases hd
      cases hname
      exact hfield
    | _ => cases hd
  obtain ⟨e, he⟩ := hresolve
  refine ⟨e, prepare_eq_ok_iff.2 ⟨?_, he⟩, ?_, fieldsIn_of_resolve he⟩
  · rw [hsteps]
    rfl
  · unfold ResolvedEncoding.detailField?
    rw [get?_of_resolve he, hchannels]
    rfl

/-- Drawing a mark whose only channel is the grouping one. -/
theorem exists_evaluate_of_grouping {inherited : Channels} {path : NodePath} (head : ViewHead)
    (kind : MarkKind) (hsteps : head.steps = []) (hlayout : head.encoding.layout = none)
    (hchannels : inherit inherited head.encoding = (groupingBy field type).encoding.channels)
    (hfield : t.hasField field = true) :
    ∃ leaf, evaluate {} t inherited path (.mark head kind) = .ok (.marks leaf) ∧
      leaf.table = t ∧ leaf.encoding.detailField? = some field ∧
      markGroups ⟨t, [], []⟩ leaf.encoding = .ok leaf.groups := by
  obtain ⟨e, hprepare, hdetail, hfields⟩ := exists_prepare_of_grouping {} hsteps hchannels hfield
  obtain ⟨groups, hgroups⟩ : ∃ groups, markGroups ⟨t, [], []⟩ e = .ok groups :=
    exists_markGroups hfields
  have hdraw : drawMark {} path kind e ⟨t, [], []⟩ = .ok (.marks ⟨path, kind, e, t, groups⟩) := by
    refine drawMark_eq_ok_iff.2 ⟨⟨.layer, ?_⟩, rfl, groups, hgroups, rfl⟩
    rw [layout_of_prepare hprepare, hlayout]
    rfl
  exact ⟨_, evaluate_mark_eq_ok_iff.2 ⟨_, e, hprepare, hdraw⟩, rfl, hdetail, hgroups⟩

/-- A head that binds the grouping channel to a named field is valid. -/
theorem checkAt_groupingBy (hname : field ≠ "") (path : NodePath) :
    (groupingBy field type).checkAt path = .ok () := by
  have hfault : (groupingBy field type).fault? = none := by
    simp [groupingBy, ViewHead.fault?, Encoding.channels, Encoding.get?, ChannelMap.toList,
      Channel.all, Definition.fault?, hname]
  unfold ViewHead.checkAt
  rw [hfault]

/-! ### Groups -/

/-- The groups by the grouping channel alone are the classes of its field. -/
theorem groups_of_markGroups {e : ResolvedEncoding} {groups : List MarkGroup}
    (hdetail : e.detailField? = some field) (hposition : t.fieldIndex? field = some position)
    (hcells : t.distinct? field = some cells) (h : markGroups ⟨t, [], []⟩ e = .ok groups) :
    List.Forall₂ (fun cell group => group.key = [(field, cell)] ∧
      group.rows = (t.rowsOf position cell).map Prod.snd) cells groups := by
  have hfield : t.hasField field = true := Table.hasField_iff_exists.2 ⟨position, hposition⟩
  have hfields : (groupingFields [] e.detailField?).filter t.hasField = [field] := by
    rw [hdetail]
    simp [groupingFields, Pipeline.withName, hfield]
  simp only [markGroups, hfields, Table.classes_singleton hposition hcells, mapM_eq_ok_iff,
    List.forall₂_map_left_iff] at h
  refine h.imp fun cell group hgroup => ?_
  obtain ⟨instances, -, hgroup⟩ := bind_eq_ok_iff.1 hgroup
  rw [← Except.ok.inj hgroup]
  exact ⟨rfl, rfl⟩

/-- Compiling a mark with groups. -/
theorem exists_groups (type : Option FieldType) (kind : MarkKind) (hname : field ≠ "")
    (hposition : t.fieldIndex? field = some position) (hcells : t.distinct? field = some cells) :
    ∃ leaf, compile {} (groupsBy field type kind) t = .ok ⟨.marks leaf⟩ ∧
      List.Forall₂ (fun cell group => group.key = [(field, cell)] ∧
        group.rows = (t.rowsOf position cell).map Prod.snd) cells leaf.groups := by
  have hfield : t.hasField field = true := Table.hasField_iff_exists.2 ⟨position, hposition⟩
  have hchannels := inherit_empty (groupingBy field type).encoding
  obtain ⟨leaf, hrun, -, hdetail, hgroups⟩ : ∃ leaf,
      evaluate {} t .empty .root (groupsBy field type kind) = .ok (.marks leaf) ∧
        leaf.table = t ∧ leaf.encoding.detailField? = some field ∧
        markGroups ⟨t, [], []⟩ leaf.encoding = .ok leaf.groups :=
    exists_evaluate_of_grouping _ kind rfl rfl hchannels hfield
  have hvalid : (groupsBy field type kind).validate = .ok () := checkAt_groupingBy hname .root
  exact ⟨leaf, compile_eq_ok_iff.2 ⟨hvalid, hrun⟩,
    groups_of_markGroups hdetail hposition hcells hgroups⟩

/-! ### Panels -/

/-- A node that binds nothing has the grouping channel that it inherits. -/
theorem inherit_groupingBy (field : String) (type : Option FieldType) :
    inherit (inherit .empty (groupingBy field type).encoding) {} =
      (groupingBy field type).encoding.channels := by
  rw [inherit_unbound, inherit_empty]

/-- The mark in the panel of a cell. -/
theorem exists_panel (type : Option FieldType) (kind : MarkKind)
    (hfield : t.hasField field = true) (cell : Cell) :
    ∃ leaf, evaluate {} (t.filterEq field cell)
        (inherit .empty (groupingBy field type).encoding) (.child .root 0) (.mark {} kind) =
          .ok (.marks leaf) ∧
      leaf.table = t.filterEq field cell := by
  have hkept : (t.filterEq field cell).hasField field = true := by
    rw [Table.hasField_congr (Table.fields_filterEq t field cell), hfield]
  obtain ⟨leaf, hrun, htable, -⟩ :=
    exists_evaluate_of_grouping {} kind rfl rfl (inherit_groupingBy field type) hkept
  exact ⟨leaf, hrun, htable⟩

/-- Compiling a mark in panels. -/
theorem exists_panels (type : Option FieldType) (kind : MarkKind) (hname : field ≠ "")
    (hposition : t.fieldIndex? field = some position) (hcells : t.distinct? field = some cells) :
    ∃ head panels, compile {} (panelsBy field type kind) t = .ok ⟨.group head panels⟩ ∧
      List.Forall₂ (fun cell panel => panel.facet = some (field, cell) ∧
        ∃ leaf, panel.node = .marks leaf ∧ leaf.table = t.filterEq field cell) cells panels := by
  have hfield : t.hasField field = true := Table.hasField_iff_exists.2 ⟨position, hposition⟩
  have hchannels := inherit_empty (groupingBy field type).encoding
  have hvalid : (panelsBy field type kind).validate = .ok () := by
    unfold View.validate panelsBy View.checkAt
    rw [checkAt_groupingBy hname]
    rfl
  obtain ⟨e, hprepare, -, -⟩ := exists_prepare_of_grouping {} rfl hchannels hfield
  have hplan : facetPlan {} t none field = .ok (.horizontal, cells) :=
    facetPlan_eq_ok_iff.2 ⟨rfl, hcells, rfl, rfl⟩
  choose leaf hrun htable using fun cell => exists_panel type kind hfield cell
  let contents := cells.map fun cell => (some (field, cell), SceneNode.marks (leaf cell))
  have hroot : evaluate {} t .empty .root (panelsBy field type kind) =
      .ok (arrange .root e .horizontal contents) := by
    refine (evaluate_facet_eq_ok_iff rfl).2 ⟨_, e, _, _, _, hprepare, hplan, ?_, rfl⟩
    rw [List.forall₂_map_right_iff, List.forall₂_same]
    intro cell _
    exact ⟨rfl, hrun cell⟩
  have hcontents : List.Forall₂ (fun cell content => content.1 = some (field, cell) ∧
      ∃ leaf, content.2 = SceneNode.marks leaf ∧ leaf.table = t.filterEq field cell) cells
      ((placed .horizontal contents).map fun child => (child.facet, child.node)) := by
    rw [map_content_placed, List.forall₂_map_right_iff, List.forall₂_same]
    intro cell _
    exact ⟨rfl, leaf cell, rfl, htable cell⟩
  exact ⟨_, _, compile_eq_ok_iff.2 ⟨hvalid, hroot⟩, List.forall₂_map_right_iff.1 hcontents⟩

/-! ### Counts -/

/-- Counting with the field as the only dimension. -/
theorem exists_counts {out : String} (maxBins : Nat) (hout : out ≠ field)
    (hposition : t.fieldIndex? field = some position) (hcells : t.distinct? field = some cells) :
    ∃ counts, Pipeline.run maxBins t [countAs out] [field] = .ok counts ∧
      counts.table.fields = [field, out] ∧
      counts.table.rows = cells.map fun cell =>
        [cell, .num (Float.ofNat (t.rowsOf position cell).length)] := by
  have hfield : t.hasField field = true := Table.hasField_iff_exists.2 ⟨position, hposition⟩
  have hgroupBy : Pipeline.inferredGroupBy (.initial t) ⟨"count", none, out⟩ [field] = [field] := by
    have hmay : Pipeline.mayGroup t ⟨"count", none, out⟩ field = true := by
      simp [Pipeline.mayGroup, hfield, hout.symm]
    simp [Pipeline.inferredGroupBy, Pipeline.State.initial, hmay, List.eraseDups_cons]
  have hrun : Pipeline.run maxBins t [countAs out] [field] =
      .ok ⟨t.reduced .count none out [field], [field], [out]⟩ := by
    simp only [Pipeline.run, countAs, List.foldlM_cons, List.foldlM_nil, Pipeline.State.next,
      hgroupBy]
    rfl
  refine ⟨_, hrun, rfl, ?_⟩
  simp only [Table.reduced, Table.classes_singleton hposition hcells, List.map_map]
  rfl

/-! ### The classes -/

/-- Faceting, grouping and counting by a field of a table split its rows alike:
    into one class for each different cell of the field, in order of first
    appearance. The panels, the groups and the counts are as many as the
    different cells, those at a position stand for the cell at it and for the
    same rows, and each row is in one class. The number of different values is
    that of the classes. -/
theorem splits_agree {out : String} (type : Option FieldType) (kind : MarkKind) (maxBins : Nat)
    (hname : field ≠ "") (hout : out ≠ field) (hfield : t.hasField field = true) :
    ∃ (column cells : List Cell) (head : GroupHead) (panels : List (Placed SceneNode))
      (leaf : MarkLeaf) (counts : Pipeline.Outcome),
      t.column? field = some column ∧ t.distinct? field = some cells ∧
      compile {} (panelsBy field type kind) t = .ok ⟨.group head panels⟩ ∧
      compile {} (groupsBy field type kind) t = .ok ⟨.marks leaf⟩ ∧
      Pipeline.run maxBins t [countAs out] [field] = .ok counts ∧
      counts.table.fields = [field, out] ∧
      panels.length = cells.length ∧ leaf.groups.length = cells.length ∧
      counts.table.rows.length = cells.length ∧
      (∀ (i : Nat) cell, cells[i]? = some cell → ∃ panel group counted, panels[i]? = some panel ∧
        leaf.groups[i]? = some group ∧ counts.table.rows[i]? = some counted ∧
        SameClass t field cell panel group counted) ∧
      (leaf.groups.flatMap MarkGroup.rows).Perm (List.range t.height) ∧
      ∀ rows, AggregateFunction.distinct.apply rows column = .num (Float.ofNat cells.length) := by
  obtain ⟨position, hposition⟩ := Table.hasField_iff_exists.1 hfield
  obtain ⟨column, hcolumn⟩ : ∃ column, t.column? field = some column := by
    rw [Table.column?, hposition]
    exact ⟨_, rfl⟩
  have hcells : t.distinct? field = some column.eraseDups := by
    rw [Table.distinct?, hcolumn, Option.map_some]
  obtain ⟨head, panels, hfacet, hpanels⟩ := exists_panels type kind hname hposition hcells
  obtain ⟨leaf, hmark, hgroups⟩ := exists_groups type kind hname hposition hcells
  obtain ⟨counts, hrun, hfields, hcounts⟩ := exists_counts maxBins hout hposition hcells
  refine ⟨_, _, head, panels, leaf, counts, hcolumn, hcells, hfacet, hmark, hrun, hfields,
    hpanels.length_eq.symm, hgroups.length_eq.symm, ?_, ?_, ?_, fun _ => rfl⟩
  · rw [hcounts, List.length_map]
  · intro i cell hcell
    obtain ⟨panel, hpanel, hpanelFacet, shown, hnode, htable⟩ :=
      exists_getElem?_of_forall₂ hpanels hcell
    obtain ⟨group, hgroup, hkey, hrows⟩ := exists_getElem?_of_forall₂ hgroups hcell
    refine ⟨panel, group, _, hpanel, hgroup, ?_, hpanelFacet, hkey, ⟨shown, hnode, ?_, ?_⟩, rfl⟩
    · rw [hcounts, List.getElem?_map, hcell, hrows, List.length_map]
      rfl
    · rw [htable, Table.fields_filterEq]
    · rw [htable, Table.rows_filterEq hposition, hrows, List.map_map, List.map_map]
      exact (Table.getElem?_rowsOf t position cell).symm
  · have hrows : (column.eraseDups.map fun cell => (t.rowsOf position cell).map Prod.snd) =
        leaf.groups.map MarkGroup.rows :=
      map_eq_map_of_forall₂ hgroups fun _ _ _ hgroup => hgroup.2.symm
    rw [List.flatMap_def, ← hrows, ← List.flatMap_def]
    exact Table.perm_rowsOf hposition hcells

end

/-- Zero with either sign, and a text that looks like it. -/
def zeros : Table := ⟨["value"], [[.num 0.0], [.text "0"], [.num (-0.0)]]⟩

/-- The two zeros are one class, which the first of them stands for, and the
    text is another. -/
theorem splits_agree_of_zeros :
    ∃ head panels leaf counts,
      compile {} (panelsBy "value" none .point) zeros = .ok ⟨.group head panels⟩ ∧
      compile {} (groupsBy "value" none .point) zeros = .ok ⟨.marks leaf⟩ ∧
      Pipeline.run 10 zeros [countAs "rows"] ["value"] = .ok counts ∧
      panels.length = 2 ∧ leaf.groups.length = 2 ∧ counts.table.rows.length = 2 ∧
      ∃ panel group counted, panels[0]? = some panel ∧ leaf.groups[0]? = some group ∧
        counts.table.rows[0]? = some counted ∧
        SameClass zeros "value" (.num 0.0) panel group counted := by
  have hzeros : zeros.distinct? "value" = some [.num 0.0, .text "0"] := rfl
  obtain ⟨column, cells, head, panels, leaf, counts, -, hcells, hfacet, hmark, hrun, -, hpanels,
    hgroups, hcounts, hclasses, -⟩ :=
      splits_agree none .point 10 (show "value" ≠ "" by decide) (show "rows" ≠ "value" by decide)
        (show zeros.hasField "value" = true from rfl)
  rw [hzeros, Option.some.injEq] at hcells
  rw [← hcells] at hpanels hgroups hcounts hclasses
  exact ⟨head, panels, leaf, counts, hfacet, hmark, hrun, hpanels, hgroups, hcounts,
    hclasses 0 (.num 0.0) rfl⟩

end PlotGrammar
