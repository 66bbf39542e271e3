import PlotGrammar.Proofs.Evaluation.Calls
import PlotGrammar.Proofs.Layout.Grid

/-! # The shape of a scene

  A scene has the shape of its view. Every node of it stands for the node of
  the view at its path: a leaf for a mark, and an inner node for a node with
  views below it. The children of an inner node stand for these views in their
  order, but a facet shows its one view in several panels, one for each cell
  of its field (`HasChildren`).

  `placed` puts children side by side; it neither drops one nor changes their
  order (`map_outline_placed`, `map_placement_placed`). `Mirrors` relates a
  node of a scene to one of the view. One evaluation gives a node that mirrors
  its view (`mirrors_of_evaluate`), and so do all that it comes to
  (`scene_mirrors_view`).
-/

namespace PlotGrammar

/-! ### Putting children in their places -/

/-- What is known of a child apart from its content: the cell of its panel and
    the node of the view that it stands for. -/
def Placed.outline (child : Placed SceneNode) : Option (String × Cell) × NodePath :=
  (child.facet, child.node.path)

/-- Children in their places, in order. -/
def placed (composition : Composition) (panels : List (Option (String × Cell) × SceneNode)) :
    List (Placed SceneNode) :=
  (plan composition panels.length).2.zipWith (fun place panel => ⟨place, panel.1, panel.2⟩) panels

theorem arrange_eq_group (path : NodePath) (e : ResolvedEncoding) (composition : Composition)
    (panels : List (Option (String × Cell) × SceneNode)) :
    arrange path e composition panels =
      .group ⟨path, e, composition.grid panels.length⟩ (placed composition panels) := rfl

theorem getElem?_placed (composition : Composition)
    (panels : List (Option (String × Cell) × SceneNode)) (i : Nat) :
    (placed composition panels)[i]? =
      panels[i]?.map fun panel => ⟨composition.place i, panel.1, panel.2⟩ := by
  unfold placed plan
  rw [List.getElem?_zipWith, List.getElem?_map]
  by_cases hi : i < panels.length
  · simp [hi]
  · simp [hi]

@[simp] theorem length_placed (composition : Composition)
    (panels : List (Option (String × Cell) × SceneNode)) :
    (placed composition panels).length = panels.length := by
  simp [placed, plan]

/-- The children have the places that were planned for so many. -/
theorem map_placement_placed (composition : Composition)
    (panels : List (Option (String × Cell) × SceneNode)) :
    (placed composition panels).map Placed.placement = (plan composition panels.length).2 := by
  apply List.ext_getElem?
  intro i
  rw [List.getElem?_map, getElem?_placed]
  by_cases hi : i < panels.length
  · simp [plan, hi]
  · simp [plan, hi]

/-- The children are what was put in place, each with its facet. -/
theorem map_content_placed (composition : Composition)
    (panels : List (Option (String × Cell) × SceneNode)) :
    (placed composition panels).map (fun child => (child.facet, child.node)) = panels := by
  apply List.ext_getElem?
  intro i
  rw [List.getElem?_map, getElem?_placed, Option.map_map]
  exact Option.map_id'

/-- The children keep their facets and their paths. -/
theorem map_outline_placed (composition : Composition)
    (panels : List (Option (String × Cell) × SceneNode)) :
    (placed composition panels).map Placed.outline =
      panels.map fun panel => (panel.1, panel.2.path) := by
  conv => rhs; rw [← map_content_placed composition panels, List.map_map]
  rfl

/-! ### What a node has below it -/

/-- Whether a node shows a view once for every cell of a field. -/
def View.isFacet : View → Bool
  | .nested head _ => head.encoding.detailField?.isSome
  | _ => false

/-- What the children of an inner node of a scene are, given the table of the
    node and the node of the view that it stands for. -/
inductive HasChildren (table : Table) (path : NodePath) : View → List (Placed SceneNode) → Prop
  where
  /-- A single nested view stands there once. -/
  | nested {head : ViewHead} {view : View} {children : List (Placed SceneNode)}
      (hdetail : head.encoding.detailField? = none)
      (houtline : children.map Placed.outline = [(none, path.child 0)]) :
      HasChildren table path (.nested head view) children
  /-- A facet has a panel for each different cell of its field, in order of
      first appearance. -/
  | facet {head : ViewHead} {view : View} {children : List (Placed SceneNode)} {field : String}
      {column : List Cell} (hdetail : head.encoding.detailField? = some field)
      (hcolumn : table.column? field = some column)
      (houtline : children.map Placed.outline =
        column.eraseDups.map fun cell => (some (field, cell), path.child 0)) :
      HasChildren table path (.nested head view) children
  /-- The members of a list stand there in their order. -/
  | concat {head : ViewHead} {views : List View} {children : List (Placed SceneNode)}
      (houtline : children.map Placed.outline =
        (List.range views.length).map fun i => (none, path.child i)) :
      HasChildren table path (.concat head views) children

/-- The children of an inner node are arranged as its layout says. -/
structure IsArranged (config : Config) (faceted : Bool) (head : GroupHead)
    (children : List (Placed SceneNode)) : Prop where
  /-- The grid is one of the layout of the node. -/
  layout : config.settleLayout head.encoding.layout faceted = .ok head.arrangement.composition
  /-- The grid and the places are those that are planned for so many children. -/
  plan : PlotGrammar.plan head.arrangement.composition children.length =
    (head.arrangement, children.map Placed.placement)
  /-- Every child knows its position. -/
  index : ∀ (i : Nat) (child : Placed SceneNode), children[i]? = some child →
    child.placement.index = i

theorem isArranged_placed {config : Config} {faceted : Bool} {path : NodePath}
    {e : ResolvedEncoding} {composition : Composition}
    (hlayout : config.settleLayout e.layout faceted = .ok composition)
    (panels : List (Option (String × Cell) × SceneNode)) :
    IsArranged config faceted ⟨path, e, composition.grid panels.length⟩
      (placed composition panels) where
  layout := by rw [Composition.composition_grid]; exact hlayout
  plan := by
    rw [Composition.composition_grid, length_placed, map_placement_placed]
    rfl
  index := by
    intro i child hchild
    rw [getElem?_placed, Option.map_eq_some_iff] at hchild
    obtain ⟨panel, -, rfl⟩ := hchild
    exact composition.index_place i

/-- A node of a scene has the shape of a node of the view, given its table. -/
inductive Mirrors (config : Config) (table : Table) : View → SceneNode → Prop where
  /-- A mark is a leaf of its kind that shows the table. -/
  | mark {head : ViewHead} {kind : MarkKind} {leaf : MarkLeaf} (hmark : leaf.mark = kind)
      (htable : leaf.table = table) : Mirrors config table (.mark head kind) (.marks leaf)
  /-- A node with views below it is an inner node. -/
  | group {w : View} {head : GroupHead} {children : List (Placed SceneNode)}
      (hchildren : HasChildren table head.path w children)
      (harranged : IsArranged config w.isFacet head children) :
      Mirrors config table w (.group head children)

/-- Only a mark is drawn as a leaf, and only as one of its kind. -/
theorem Mirrors.eq_marks_iff {config : Config} {table : Table} {w : View} {n : SceneNode}
    (h : Mirrors config table w n) (kind : MarkKind) :
    (∃ leaf, n = .marks leaf ∧ leaf.mark = kind) ↔ ∃ head, w = .mark head kind := by
  cases h with
  | mark hmark _ =>
    constructor
    · rintro ⟨leaf, hleaf, hkind⟩
      cases hleaf
      exact ⟨_, by rw [← hkind, hmark]⟩
    · rintro ⟨head, hview⟩
      cases hview
      exact ⟨_, rfl, hmark⟩
  | group hchildren _ =>
    constructor
    · rintro ⟨leaf, hleaf, -⟩
      cases hleaf
    · rintro ⟨head, rfl⟩
      cases hchildren

/-! ### Calls -/

/-- Preparing a node keeps its layout directive. -/
theorem layout_of_prepare {config : Config} {t : Table} {inherited : Channels} {head : ViewHead}
    {o : Pipeline.Outcome} {e : ResolvedEncoding}
    (h : prepare config t inherited head = .ok (o, e)) : e.layout = head.encoding.layout :=
  (channels_of_resolve (prepare_eq_ok_iff.1 h).2).2

/-- What is evaluated at a path has the path. -/
theorem path_of_evaluate {config : Config} {t : Table} {inherited : Channels} {path : NodePath}
    {v : View} {node : SceneNode} (h : evaluate config t inherited path v = .ok node) :
    node.path = path := by
  cases v with
  | mark head kind =>
    obtain ⟨o, e, -, h⟩ := evaluate_mark_eq_ok_iff.1 h
    obtain ⟨-, -, groups, -, rfl⟩ := drawMark_eq_ok_iff.1 h
    rfl
  | nested head view =>
    cases hdetail : head.encoding.detailField? with
    | none =>
      obtain ⟨o, e, composition, below, -, -, -, rfl⟩ := (evaluate_nested_eq_ok_iff hdetail).1 h
      rfl
    | some field =>
      obtain ⟨o, e, composition, cells, panels, -, -, -, rfl⟩ :=
        (evaluate_facet_eq_ok_iff hdetail).1 h
      rfl
  | concat head views =>
    obtain ⟨o, e, composition, nodes, -, -, -, rfl⟩ := evaluate_concat_eq_ok_iff.1 h
    rfl

/-- The nodes of what a call gives stand at or below its node. -/
theorem Call.prefix_path_of_holds {config : Config} {c : Call} {n node : SceneNode}
    (h : c.run config = .ok node) (hn : SceneNode.Holds n node) :
    c.path.indices <+: n.path.indices := by
  induction hn generalizing c with
  | self =>
    have hpath : n.path = c.path := path_of_evaluate h
    exact ⟨[], by rw [List.append_nil, hpath]⟩
  | inside hmem _ ih =>
    obtain ⟨c', hmakes, hc'⟩ := givesBelow_of_mem h hmem
    obtain ⟨index, -, hpath⟩ := hmakes.exists_child
    have hprefix := ih hc'
    rw [hpath] at hprefix
    exact (List.prefix_append _ _).trans hprefix

/-- The panels of a facet are outlined by the cells that it was planned for. -/
theorem outline_panels {config : Config} {t : Table} {inherited : Channels} {path : NodePath}
    {child : View} {field : String} {cells : List Cell}
    {panels : List (Option (String × Cell) × SceneNode)}
    (h : List.Forall₂ (fun cell panel => panel.1 = some (field, cell) ∧
      evaluate config (t.filterEq field cell) inherited path child = .ok panel.2) cells panels) :
    panels.map (fun panel => (panel.1, panel.2.path)) =
      cells.map fun cell => (some (field, cell), path) := by
  refine (map_eq_map_of_forall₂ h fun cell _ panel hpanel => ?_).symm
  rw [hpanel.1, path_of_evaluate hpanel.2]

/-- The members of a list are outlined by their positions. -/
theorem outline_members {config : Config} {t : Table} {inherited : Channels} {path : NodePath}
    {views : List View} {nodes : List SceneNode} {index : Nat}
    (h : List.Forall₂ (fun child below =>
      evaluate config t inherited (path.child child.2) child.1 = .ok below)
      (views.zipIdx index) nodes) :
    nodes.map (fun below => ((none : Option (String × Cell)), below.path)) =
      (List.range' index views.length).map fun i => (none, path.child i) := by
  induction views generalizing index nodes with
  | nil =>
    cases h
    rfl
  | cons view views ih =>
    cases h with
    | cons hnode hrest =>
      rw [List.map_cons, ih hrest, path_of_evaluate hnode, List.length_cons, List.range'_succ,
        List.map_cons]

/-- Children that are put in their places have the shape of a node if their
    outline is that of its views. -/
theorem mirrors_arrange {config : Config} {table : Table} {w : View} {path : NodePath}
    {e : ResolvedEncoding} {composition : Composition}
    {panels : List (Option (String × Cell) × SceneNode)}
    (hlayout : config.settleLayout e.layout w.isFacet = .ok composition)
    (hchildren : HasChildren table path w (placed composition panels)) :
    Mirrors config table w (arrange path e composition panels) := by
  rw [arrange_eq_group]
  exact .group hchildren (isArranged_placed hlayout panels)

/-- What is evaluated has the encoding that the channels of the view resolve to
    and the shape of the view. -/
theorem mirrors_of_evaluate {config : Config} {t : Table} {inherited : Channels} {path : NodePath}
    {v : View} {n : SceneNode} (h : evaluate config t inherited path v = .ok n) :
    ∃ o, prepare config t inherited v.head = .ok (o, n.encoding) ∧ Mirrors config o.table v n := by
  cases v with
  | mark head kind =>
    obtain ⟨o, e, hprepare, h⟩ := evaluate_mark_eq_ok_iff.1 h
    obtain ⟨-, -, groups, -, rfl⟩ := drawMark_eq_ok_iff.1 h
    exact ⟨o, hprepare, .mark rfl rfl⟩
  | nested head view =>
    cases hdetail : head.encoding.detailField? with
    | none =>
      obtain ⟨o, e, composition, below, hprepare, hlayout, hbelow, rfl⟩ :=
        (evaluate_nested_eq_ok_iff hdetail).1 h
      refine ⟨o, hprepare, mirrors_arrange ?_ (.nested hdetail ?_)⟩
      · rw [layout_of_prepare hprepare, View.isFacet, hdetail]
        exact hlayout
      · rw [map_outline_placed, List.map_singleton, path_of_evaluate hbelow]
    | some field =>
      obtain ⟨o, e, composition, cells, panels, hprepare, hplan, hpanels, rfl⟩ :=
        (evaluate_facet_eq_ok_iff hdetail).1 h
      obtain ⟨hlayout, hcells, -, -⟩ := facetPlan_eq_ok_iff.1 hplan
      -- The panels stand for the different cells of the column.
      rw [Table.distinct?, Option.map_eq_some_iff] at hcells
      obtain ⟨column, hcolumn, rfl⟩ := hcells
      refine ⟨o, hprepare, mirrors_arrange ?_ (.facet hdetail hcolumn ?_)⟩
      · rw [layout_of_prepare hprepare, View.isFacet, hdetail]
        exact hlayout
      · rw [map_outline_placed, outline_panels hpanels]
  | concat head views =>
    obtain ⟨o, e, composition, nodes, hprepare, hplan, hnodes, rfl⟩ := evaluate_concat_eq_ok_iff.1 h
    refine ⟨o, hprepare, mirrors_arrange ?_ (.concat ?_)⟩
    · rw [layout_of_prepare hprepare]
      exact (concatPlan_eq_ok_iff.1 hplan).1
    · rw [map_outline_placed, List.map_map, List.range_eq_range']
      exact outline_members hnodes

/-! ### Scenes -/

/-- Every node of the scene of a compiled view was made over some table. -/
theorem exists_madeOver {config : Config} {v : View} {t : Table} {scene : Scene}
    (h : compile config v t = .ok scene) {n : SceneNode} (hn : SceneNode.Holds n scene.root) :
    ∃ table, MadeOver config v t n table := by
  obtain ⟨c, hreached, hrun⟩ := exists_reached_of_holds h hn
  obtain ⟨o, hprepare, -⟩ := mirrors_of_evaluate hrun
  exact ⟨o.table, c, o, _, hreached, hrun, hprepare, rfl⟩

/-- A node that was made over a table mirrors the node of the view at its path,
    whose channels are resolved over the table. -/
theorem MadeOver.exists_call {config : Config} {v : View} {t table : Table} {n : SceneNode}
    (h : MadeOver config v t n table) :
    ∃ c o, Reached config v t c ∧ c.path = n.path ∧ v.at? n.path.indices = some c.view ∧
      prepare config c.table c.inherited c.view.head = .ok (o, n.encoding) ∧ o.table = table ∧
      Mirrors config table c.view n := by
  obtain ⟨c, o, e, hreached, hrun, hprepare, rfl⟩ := h
  obtain ⟨other, hother, hmirrors⟩ := mirrors_of_evaluate hrun
  rw [hprepare] at hother
  cases hother
  have hpath : n.path = c.path := path_of_evaluate hrun
  obtain ⟨-, -, hat⟩ := hreached.exists_above
  rw [← hpath] at hat
  exact ⟨c, o, hreached, hpath.symm, hat, hprepare, rfl, hmirrors⟩

/-- A leaf was made over the table that it shows. -/
theorem MadeOver.table_eq {config : Config} {v : View} {t table : Table} {leaf : MarkLeaf}
    (h : MadeOver config v t (.marks leaf) table) : leaf.table = table := by
  obtain ⟨c, o, -, -, -, -, -, hmirrors⟩ := h.exists_call
  generalize c.view = w at hmirrors
  cases hmirrors with
  | mark _ htable => exact htable

/-- A scene has the shape of its view: every node of it stands for the node of
    the view at its path, with the children of that node in order, each in the
    place that the layout of the node gives it. -/
theorem scene_mirrors_view {config : Config} {v : View} {t : Table} {scene : Scene}
    (h : compile config v t = .ok scene) {n : SceneNode} (hn : SceneNode.Holds n scene.root) :
    ∃ w, v.at? n.path.indices = some w ∧
      (∀ kind, (∃ leaf, n = .marks leaf ∧ leaf.mark = kind) ↔ ∃ head, w = .mark head kind) ∧
      (∃ table, MadeOver config v t n table) ∧
      ∀ table, MadeOver config v t n table → Mirrors config table w n := by
  obtain ⟨table, htable⟩ := exists_madeOver h hn
  obtain ⟨c, o, -, -, hat, -, -, hmirrors⟩ := htable.exists_call
  refine ⟨c.view, hat, hmirrors.eq_marks_iff, ⟨table, htable⟩, fun other hother => ?_⟩
  -- Any call that gives the node is for the view at its path.
  obtain ⟨c', o', -, -, hat', -, -, hmirrors'⟩ := hother.exists_call
  rw [hat] at hat'
  rw [Option.some.inj hat']
  exact hmirrors'

/-- Points in a row of panels, one below the other for every site. -/
def sitePanels : View :=
  .nested { encoding := { detail := some (.field "site" none), layout := some ⟨.vertical, none⟩ } }
    (.mark {} .point)

/-- Three visits to two sites. -/
def siteVisits : Table := ⟨["site"], [[.text "B"], [.text "A"], [.text "B"]]⟩

/-- The root of the panels of the visited sites mirrors the facet. -/
theorem scene_mirrors_view_of_visits :
    ∃ scene, compile {} sitePanels siteVisits = .ok scene ∧ SceneNode.Holds scene.root scene.root ∧
      sitePanels.at? scene.root.path.indices = some sitePanels ∧
      Mirrors {} siteVisits sitePanels scene.root := by
  obtain ⟨scene, hscene, hpath, hrun⟩ : ∃ scene, compile {} sitePanels siteVisits = .ok scene ∧
      scene.root.path = .root ∧ evaluate {} siteVisits .empty .root sitePanels = .ok scene.root :=
    ⟨_, rfl, rfl, rfl⟩
  obtain ⟨w, hat, -, -, hmirrors⟩ := scene_mirrors_view hscene .self
  have hw : sitePanels = w := by
    rw [hpath] at hat
    exact Option.some.inj hat
  subst hw
  exact ⟨scene, hscene, .self, hat, hmirrors siteVisits ⟨_, _, _, .root, hrun, rfl, rfl⟩⟩

/-- The panels come in the order in which the sites first appear. -/
example : ∃ head children,
    (compile {} sitePanels siteVisits).map Scene.root = .ok (.group head children) ∧
    children.map Placed.outline =
      [(some ("site", .text "B"), ⟨[0]⟩), (some ("site", .text "A"), ⟨[0]⟩)] :=
  ⟨_, _, rfl, rfl⟩

end PlotGrammar
