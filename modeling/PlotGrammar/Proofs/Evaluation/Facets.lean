import PlotGrammar.Proofs.Evaluation.Structure
import PlotGrammar.Proofs.Pipeline.Panels
import PlotGrammar.Proofs.Table.Partition

/-! # Facets inside of facets

  In a view without steps the table of a node is the one that it is given, so
  only facets choose rows. This module says which rows a leaf has:

  - `SceneNode.Shows` leads from a node of a scene to a leaf below it, along
    with the facets that are met on the way. Every leaf is shown
    (`SceneNode.mem_leaves_iff_shows`).
  - `Table.Selects` relates a table to the rows that meet some facets. The rows
    that a further facet selects of a panel are those that it selects of the
    whole table (`Table.Selects.of_filterEq`), which carries the conjunction of
    all facets down to a leaf (`selects_of_evaluate`).
  - The leaves of one mark are found by the path of its node
    (`SceneNode.rowsAt`). A facet splits the rows of its table, and the members
    of a list have paths of their own, so the leaves of a mark have every row
    once (`perm_rowsAt_of_evaluate`).

  `leaves_of_compile` says both of the leaves of a scene.
-/

namespace PlotGrammar

/-! ### Rows that meet facets -/

namespace Table

/-- Whether a row of a table has the cell of a facet under its field. -/
def meets (t : Table) (row : List Cell) (facet : String × Cell) : Bool :=
  (t.fieldIndex? facet.1).any fun position => cellAt row position == facet.2

/-- The second table has the rows of the first that meet all of some facets, in
    their order. There are such rows if there is a facet. -/
structure Selects (t : Table) (facets : List (String × Cell)) (selected : Table) : Prop where
  fields : selected.fields = t.fields
  rows : selected.rows = t.rows.filter fun row => facets.all (t.meets row)
  nonempty : facets ≠ [] → selected.rows ≠ []

/-- Without a facet all rows are selected. -/
theorem Selects.refl (t : Table) : t.Selects [] t where
  fields := rfl
  rows := by simp
  nonempty := fun h => absurd rfl h

/-- The panel of a cell has the rows that meet its facet. -/
theorem rows_filterEq_eq_filter (t : Table) (field : String) (cell : Cell) :
    (t.filterEq field cell).rows = t.rows.filter fun row => t.meets row (field, cell) := by
  cases h : t.fieldIndex? field with
  | none => simp [filterEq, ofFields, meets, h]
  | some position => simp [filterEq, meets, h]

/-- Which facets a row meets depends on the list of fields only. -/
theorem meets_congr {t t' : Table} (h : t.fields = t'.fields) (row : List Cell)
    (facet : String × Cell) : t.meets row facet = t'.meets row facet := by
  rw [meets, meets, fieldIndex?_congr h]

/-- What is selected of a panel is selected of the whole table by one more
    facet. -/
theorem Selects.of_filterEq {t selected : Table} {field : String} {cells : List Cell} {cell : Cell}
    {facets : List (String × Cell)} (hcells : t.distinct? field = some cells)
    (hcell : cell ∈ cells) (h : (t.filterEq field cell).Selects facets selected) :
    t.Selects ((field, cell) :: facets) selected where
  fields := by rw [h.fields, fields_filterEq]
  rows := by
    have hmeets : ∀ row, facets.all ((t.filterEq field cell).meets row) =
        facets.all (t.meets row) := by
      intro row
      have hsame := meets_congr (fields_filterEq t field cell) row
      exact congrArg facets.all (funext hsame)
    rw [h.rows, rows_filterEq_eq_filter, List.filter_filter]
    apply List.filter_congr
    intro row _
    rw [hmeets, List.all_cons, Bool.and_comm]
  nonempty := by
    intro _
    by_cases hfacets : facets = []
    · -- The cell of the panel is from a row, which meets its facet.
      have hrows := h.rows
      rw [hfacets] at hrows
      have hpanel : selected.rows = (t.filterEq field cell).rows := by simpa using hrows
      rw [hpanel]
      exact rows_filterEq_ne_nil hcells hcell
    · exact h.nonempty hfacets

end Table

/-! ### Leaves and the facets above them -/

namespace SceneNode

/-- The leaf stands at or below a node, and these are the facets that are met
    on the way from the node down to it. -/
inductive Shows (leaf : MarkLeaf) : SceneNode → List (String × Cell) → Prop where
  | self : Shows leaf (.marks leaf) []
  | inside {head : GroupHead} {children : List (Placed SceneNode)} {child : Placed SceneNode}
      {facets : List (String × Cell)} (hmem : child ∈ children) (h : Shows leaf child.node facets) :
      Shows leaf (.group head children) (child.facet.toList ++ facets)

/-- The leaves of a node are those that it shows, below whatever facets. -/
theorem mem_leaves_iff_shows {leaf : MarkLeaf} {node : SceneNode} :
    leaf ∈ node.leaves ↔ ∃ facets, node.Shows leaf facets := by
  constructor
  · intro h
    have hholds := holds_of_mem_leaves h
    clear h
    induction hholds with
    | self => exact ⟨[], .self⟩
    | inside hmem _ ih =>
      obtain ⟨facets, hshows⟩ := ih
      exact ⟨_, .inside hmem hshows⟩
  · intro ⟨facets, h⟩
    induction h with
    | self => simp [leaves]
    | inside hmem _ ih =>
      rw [leaves, mem_leavesOf]
      exact ⟨_, hmem, ih⟩

/-- The leaves at or below a node that stand for the node of the view at a
    path. -/
def leavesAt (path : NodePath) (node : SceneNode) : List MarkLeaf :=
  node.leaves.filter fun leaf => leaf.path = path

/-- The rows of these leaves, leaf by leaf. -/
def rowsAt (path : NodePath) (node : SceneNode) : List (List Cell) :=
  (node.leavesAt path).flatMap fun leaf => leaf.table.rows

/-- What is shown below children in their places is shown by one of them, below
    the facet that it stands for. -/
theorem Shows.exists_of_arrange {path : NodePath} {e : ResolvedEncoding}
    {composition : Composition} {panels : List (Option (String × Cell) × SceneNode)}
    {leaf : MarkLeaf} {facets : List (String × Cell)}
    (h : (arrange path e composition panels).Shows leaf facets) :
    ∃ panel ∈ panels, ∃ rest, panel.2.Shows leaf rest ∧ facets = panel.1.toList ++ rest := by
  rw [arrange_eq_group] at h
  cases h with
  | @inside _ _ child rest hmem hrest =>
    have hpanel := List.mem_map_of_mem (f := fun child => (child.facet, child.node)) hmem
    rw [map_content_placed] at hpanel
    exact ⟨_, hpanel, rest, hrest, rfl⟩

/-- The rows below children in their places are those below each of them. -/
theorem rowsAt_arrange (target path : NodePath) (e : ResolvedEncoding) (composition : Composition)
    (panels : List (Option (String × Cell) × SceneNode)) :
    (arrange path e composition panels).rowsAt target =
      panels.flatMap fun panel => panel.2.rowsAt target := by
  have hleaves : (arrange path e composition panels).leaves =
      panels.flatMap fun panel => panel.2.leaves := by
    rw [arrange_eq_group, leaves, leavesOf_eq_flatMap]
    conv => rhs; rw [← map_content_placed composition panels, List.flatMap_map]
  unfold rowsAt leavesAt
  rw [hleaves, List.filter_flatMap, List.flatMap_assoc]

end SceneNode

/-! ### Views without steps -/

/-- A node has no steps. -/
def ViewHead.HasNoSteps (head : ViewHead) : Prop := head.steps = []

/-- A node without steps has the table that it is given. -/
theorem table_of_prepare {config : Config} {t : Table} {inherited : Channels} {head : ViewHead}
    {o : Pipeline.Outcome} {e : ResolvedEncoding} (hsteps : head.HasNoSteps)
    (h : prepare config t inherited head = .ok (o, e)) : o.table = t := by
  obtain ⟨hrun, -⟩ := prepare_eq_ok_iff.1 h
  unfold ViewHead.HasNoSteps at hsteps
  rw [hsteps] at hrun
  cases hrun
  rfl

/-- The leaves that are shown below some facets have the rows that meet all of
    them. -/
theorem selects_of_evaluate {config : Config} {v : View} (hv : v.AllHeads ViewHead.HasNoSteps)
    {t : Table} {inherited : Channels} {path : NodePath} {node : SceneNode}
    (h : evaluate config t inherited path v = .ok node) {leaf : MarkLeaf}
    {facets : List (String × Cell)} (hshows : node.Shows leaf facets) :
    t.Selects facets leaf.table := by
  induction v generalizing t inherited path node facets with
  | mark head kind =>
    obtain ⟨o, e, hprepare, hdraw⟩ := evaluate_mark_eq_ok_iff.1 h
    obtain ⟨-, -, groups, -, rfl⟩ := drawMark_eq_ok_iff.1 hdraw
    cases hshows
    rw [table_of_prepare (View.allHeads_mark.1 hv) hprepare]
    exact .refl t
  | nested head child ih =>
    obtain ⟨hown, hchild⟩ := View.allHeads_nested.1 hv
    cases hdetail : head.encoding.detailField? with
    | none =>
      obtain ⟨o, e, composition, below, hprepare, -, hbelow, rfl⟩ :=
        (evaluate_nested_eq_ok_iff hdetail).1 h
      obtain ⟨panel, hpanel, rest, hrest, rfl⟩ := hshows.exists_of_arrange
      cases List.mem_singleton.1 hpanel
      rw [table_of_prepare hown hprepare] at hbelow
      exact ih hchild hbelow hrest
    | some field =>
      obtain ⟨o, e, composition, cells, panels, hprepare, hplan, hpanels, rfl⟩ :=
        (evaluate_facet_eq_ok_iff hdetail).1 h
      obtain ⟨panel, hpanel, rest, hrest, rfl⟩ := hshows.exists_of_arrange
      obtain ⟨cell, hcell, hfacet, hrun⟩ := exists_of_forall₂_of_mem hpanels hpanel
      have hcells := (facetPlan_eq_ok_iff.1 hplan).2.1
      rw [table_of_prepare hown hprepare] at hcells hrun
      rw [hfacet]
      exact .of_filterEq hcells hcell (ih hchild hrun hrest)
  | concat head children ih =>
    obtain ⟨hown, hchildren⟩ := View.allHeads_concat.1 hv
    obtain ⟨o, e, composition, nodes, hprepare, -, hnodes, rfl⟩ := evaluate_concat_eq_ok_iff.1 h
    obtain ⟨panel, hpanel, rest, hrest, rfl⟩ := hshows.exists_of_arrange
    obtain ⟨below, hbelow, rfl⟩ := List.mem_map.1 hpanel
    obtain ⟨child, hchild, hrun⟩ := exists_of_forall₂_of_mem hnodes hbelow
    have hmem := List.fst_mem_of_mem_zipIdx hchild
    rw [table_of_prepare hown hprepare] at hrun
    exact ih child.1 hmem (hchildren child.1 hmem) hrun hrest

/-! ### Every row once -/

/-- The leaves below a node that stands elsewhere stand for other nodes. -/
theorem rowsAt_eq_nil {config : Config} {t : Table} {inherited : Channels} {path target : NodePath}
    {v : View} {node : SceneNode} (h : evaluate config t inherited path v = .ok node)
    (hpath : ¬ path.indices <+: target.indices) : node.rowsAt target = [] := by
  have hleaves : node.leavesAt target = [] := by
    unfold SceneNode.leavesAt
    rw [List.filter_eq_nil_iff]
    intro leaf hleaf htarget
    have hrun : Call.run config ⟨t, inherited, path, v⟩ = .ok node := h
    have hprefix := Call.prefix_path_of_holds hrun (SceneNode.holds_of_mem_leaves hleaf)
    have hsame : leaf.path = target := of_decide_eq_true htarget
    rw [← hsame] at hpath
    exact hpath hprefix
  unfold SceneNode.rowsAt
  rw [hleaves, List.flatMap_nil]

/-- Of a list of views only the member on the way to a node has leaves for it. -/
theorem exists_rowsAt_eq_of_members {config : Config} {t : Table} {inherited : Channels}
    {path : NodePath} {views : List View} {nodes : List SceneNode} {index : Nat} {child : View}
    (rest : List Nat)
    (h : List.Forall₂ (fun child below =>
      evaluate config t inherited (path.child child.2) child.1 = .ok below) views.zipIdx nodes)
    (hchild : views[index]? = some child) :
    ∃ below, evaluate config t inherited (path.child index) child = .ok below ∧
      nodes.flatMap (SceneNode.rowsAt ⟨path.indices ++ index :: rest⟩) =
        below.rowsAt ⟨path.indices ++ index :: rest⟩ := by
  have hmember : views.zipIdx[index]? = some (child, index) := by
    rw [List.getElem?_zipIdx, hchild, Option.map_some, Nat.zero_add]
  obtain ⟨below, hbelow, hrun⟩ := exists_getElem?_of_forall₂ h hmember
  refine ⟨below, hrun, flatMap_eq_of_getElem? hbelow ?_⟩
  intro j other hother hne
  obtain ⟨⟨view, position⟩, hview, hotherRun⟩ := exists_getElem?_of_forall₂ h.flip hother
  have hposition : position = j := by
    rw [List.getElem?_zipIdx, Option.map_eq_some_iff] at hview
    obtain ⟨_, -, heq⟩ := hview
    rw [Nat.zero_add] at heq
    exact (congrArg Prod.snd heq).symm
  apply rowsAt_eq_nil hotherRun
  -- The paths part at the positions of the two members.
  intro hprefix
  rw [NodePath.child, List.prefix_append_right_inj] at hprefix
  rw [hposition] at hprefix
  exact hne (List.cons_prefix_cons.1 hprefix).1

/-- Below a single nested view stands only its child, at position zero. -/
theorem View.exists_of_at?_nested {own head : ViewHead} {kind : MarkKind} {child : View}
    {rest : List Nat} (h : (View.nested own child).at? rest = some (.mark head kind)) :
    ∃ below, rest = 0 :: below ∧ child.at? below = some (.mark head kind) := by
  rcases at?_cases h with ⟨-, hself⟩ | ⟨index, below, found, hrest, hfound, hat⟩
  · cases hself
  · cases index with
    | zero =>
      have hchild : child = found := Option.some.inj hfound
      rw [hchild]
      exact ⟨below, hrest, hat⟩
    | succ index => cases hfound

/-- The leaves of a mark have every row of the table once. -/
theorem perm_rowsAt_of_evaluate {config : Config} {v : View}
    (hv : v.AllHeads ViewHead.HasNoSteps) {t : Table} {inherited : Channels} {path : NodePath}
    {node : SceneNode} (h : evaluate config t inherited path v = .ok node) {rest : List Nat}
    {head : ViewHead} {kind : MarkKind} (hat : v.at? rest = some (.mark head kind)) :
    (node.rowsAt ⟨path.indices ++ rest⟩).Perm t.rows := by
  induction v generalizing t inherited path node rest with
  | mark own other =>
    obtain ⟨o, e, hprepare, hdraw⟩ := evaluate_mark_eq_ok_iff.1 h
    obtain ⟨-, -, groups, -, rfl⟩ := drawMark_eq_ok_iff.1 hdraw
    rcases View.at?_cases hat with ⟨hrest, -⟩ | ⟨index, below, child, -, hchild, -⟩
    · rw [hrest, List.append_nil, table_of_prepare (View.allHeads_mark.1 hv) hprepare]
      simp [SceneNode.rowsAt, SceneNode.leavesAt, SceneNode.leaves]
    · cases hchild
  | nested own child ih =>
    obtain ⟨hown, hchildHeads⟩ := View.allHeads_nested.1 hv
    obtain ⟨below, rfl, hbelow⟩ := View.exists_of_at?_nested hat
    have hpath : path.indices ++ 0 :: below = (path.child 0).indices ++ below := by
      simp [NodePath.child]
    rw [hpath]
    cases hdetail : own.encoding.detailField? with
    | none =>
      obtain ⟨o, e, composition, shown, hprepare, -, hrun, rfl⟩ :=
        (evaluate_nested_eq_ok_iff hdetail).1 h
      rw [table_of_prepare hown hprepare] at hrun
      rw [SceneNode.rowsAt_arrange, List.flatMap_singleton]
      exact ih hchildHeads hrun hbelow
    | some field =>
      obtain ⟨o, e, composition, cells, panels, hprepare, hplan, hpanels, rfl⟩ :=
        (evaluate_facet_eq_ok_iff hdetail).1 h
      have hcells := (facetPlan_eq_ok_iff.1 hplan).2.1
      rw [table_of_prepare hown hprepare] at hcells hpanels
      -- Each panel has its own rows, and the panels split those of the table.
      have hrows : (panels.flatMap fun panel =>
          panel.2.rowsAt ⟨(path.child 0).indices ++ below⟩).Perm
            (cells.flatMap fun cell => (t.filterEq field cell).rows) := by
        apply perm_flatMap_of_forall₂ hpanels
        intro cell _ panel hpanel
        exact ih hchildHeads hpanel.2 hbelow
      rw [SceneNode.rowsAt_arrange]
      exact hrows.trans (Table.perm_panels hcells)
  | concat own children ih =>
    obtain ⟨hown, hchildren⟩ := View.allHeads_concat.1 hv
    obtain ⟨o, e, composition, nodes, hprepare, -, hnodes, rfl⟩ := evaluate_concat_eq_ok_iff.1 h
    rw [table_of_prepare hown hprepare] at hnodes
    rcases View.at?_cases hat with ⟨-, hself⟩ | ⟨index, below, child, rfl, hchild, hbelow⟩
    · cases hself
    · have hmem : child ∈ children := List.mem_of_getElem? hchild
      obtain ⟨shown, hrun, hrows⟩ := exists_rowsAt_eq_of_members below hnodes hchild
      have hperm := ih child hmem (hchildren child hmem) hrun hbelow
      rw [NodePath.child, List.append_assoc] at hperm
      rw [SceneNode.rowsAt_arrange, List.flatMap_map, hrows]
      exact hperm

/-! ### Scenes -/

/-- Without steps every leaf has the rows of the table that meet all facets on
    the way down to it, in their order, and has some if there is a facet. The
    leaves of each mark of the view have every row once. -/
theorem leaves_of_compile {config : Config} {v : View} {t : Table} {scene : Scene}
    (hv : v.AllHeads ViewHead.HasNoSteps) (h : compile config v t = .ok scene) :
    (∀ leaf, leaf ∈ scene.leaves ↔ ∃ facets, scene.root.Shows leaf facets) ∧
      (∀ leaf facets, scene.root.Shows leaf facets → t.Selects facets leaf.table) ∧
      ∀ path head kind, v.at? path = some (.mark head kind) →
        (scene.root.rowsAt ⟨path⟩).Perm t.rows := by
  obtain ⟨-, hroot⟩ := compile_eq_ok_iff.1 h
  refine ⟨fun leaf => SceneNode.mem_leaves_iff_shows, ?_, ?_⟩
  · intro leaf facets hshows
    exact selects_of_evaluate hv hroot hshows
  · intro path head kind hat
    exact perm_rowsAt_of_evaluate hv hroot hat

/-- For every site points and ticks, and the ticks again for every kind. -/
def sitesAndKinds : View :=
  .nested { encoding := { detail := some (.field "site" none) } }
    (.concat {} [
      .mark {} .point,
      .nested { encoding := { detail := some (.field "kind" none) } } (.mark {} .tick)])

/-- Visits of two kinds to two sites. -/
def visitsOfKinds : Table :=
  ⟨["site", "kind"],
    [[.text "B", .num 0.0], [.text "A", .num 1.0], [.text "B", .num 1.0], [.text "B", .num (-0.0)]]⟩

/-- A leaf below two facets has the rows that meet both, whatever the sign of
    zero, and the ticks have all four visits. -/
theorem leaves_of_compile_of_visits :
    ∃ scene leaf, sitesAndKinds.AllHeads ViewHead.HasNoSteps ∧
      compile {} sitesAndKinds visitsOfKinds = .ok scene ∧
      scene.root.Shows leaf [("site", .text "B"), ("kind", .num 0.0)] ∧
      leaf.table.rows = [[.text "B", .num 0.0], [.text "B", .num (-0.0)]] ∧
      (scene.root.rowsAt ⟨[0, 1, 0]⟩).Perm visitsOfKinds.rows := by
  have hsteps : sitesAndKinds.AllHeads ViewHead.HasNoSteps := by
    simp [sitesAndKinds, ViewHead.HasNoSteps]
  obtain ⟨scene, leaf, hscene, hshows⟩ : ∃ scene leaf,
      compile {} sitesAndKinds visitsOfKinds = .ok scene ∧
        scene.root.Shows leaf ((some ("site", Cell.text "B")).toList ++
          (none.toList ++ ((some ("kind", Cell.num 0.0)).toList ++ []))) :=
    ⟨_, _, rfl, .inside (.head _) (.inside (.tail _ (.head _)) (.inside (.head _) .self))⟩
  obtain ⟨-, hleaves, hmarks⟩ := leaves_of_compile hsteps hscene
  have hrows := (hleaves leaf _ hshows).rows
  exact ⟨scene, leaf, hsteps, hscene, hshows, hrows, hmarks [0, 1, 0] _ _ rfl⟩

end PlotGrammar
