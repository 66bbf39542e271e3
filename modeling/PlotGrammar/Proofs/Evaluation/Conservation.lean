import PlotGrammar.Proofs.Evaluation.Structure
import PlotGrammar.Proofs.Pipeline.Outcomes
import PlotGrammar.Proofs.Table.Partition
import Mathlib.Algebra.BigOperators.Ring.List
import Mathlib.Algebra.Ring.Nat

/-! # Rows are neither lost nor duplicated

  Only an aggregate changes the number of rows. A bin step writes a column,
  an inner node hands its table to all of its children, a facet splits it, and
  a mark draws an instance for every row. So a view without aggregates draws
  every row of its table once for each of its marks.

  - `height_of_prepare`: the steps of a node keep the rows,
  - `instanceCount_of_drawMark`: a mark draws them all,
  - `markCount_of_evaluate`: so does every view, by induction over the tree.
-/

namespace PlotGrammar

/-! ### Marks in a view -/

namespace View

mutual

/-- The number of nodes that draw a mark. -/
def markNodes : View → Nat
  | .mark _ _ => 1
  | .nested _ child => child.markNodes
  | .concat _ children => markNodesOf children

/-- The number of nodes of some views that draw a mark. -/
def markNodesOf : List View → Nat
  | [] => 0
  | v :: rest => v.markNodes + markNodesOf rest

end

theorem markNodesOf_eq_sum (views : List View) : markNodesOf views = (views.map markNodes).sum := by
  induction views with
  | nil => rfl
  | cons v views ih => rw [markNodesOf, ih, List.map_cons, List.sum_cons]

end View

/-- A node has no aggregate step. -/
def ViewHead.HasNoAggregate (head : ViewHead) : Prop := ∀ step, .aggregate step ∉ head.steps

/-! ### Steps -/

/-- The table of a node without aggregates has the rows that it is given. -/
theorem height_of_prepare {config : Config} {t : Table} {inherited : Channels} {head : ViewHead}
    {o : Pipeline.Outcome} {e : ResolvedEncoding}
    (hsteps : head.HasNoAggregate)
    (h : prepare config t inherited head = .ok (o, e)) : o.table.height = t.height :=
  (Pipeline.onlyBins_of_run hsteps (prepare_eq_ok_iff.1 h).1).height

/-! ### Marks -/

/-- A group has an instance for each of its members. -/
theorem length_instances_of_groupOf {o : Pipeline.Outcome} {e : ResolvedEncoding}
    {fields : List String} {members : List Cell × List (List Cell × Nat)} {group : MarkGroup}
    (h : groupOf o e fields members = .ok group) : group.instances.length = members.2.length := by
  obtain ⟨instances, hinstances, h⟩ := bind_eq_ok_iff.1 h
  cases h
  exact (mapM_eq_ok_iff.1 hinstances).length_eq.symm

/-- The groups of a mark have an instance for every row. -/
theorem length_instances_of_markGroups {o : Pipeline.Outcome} {e : ResolvedEncoding}
    {groups : List MarkGroup} (h : markGroups o e = .ok groups) :
    (groups.flatMap MarkGroup.instances).length = o.table.height := by
  have hlengths := map_eq_map_of_forall₂ (mapM_eq_ok_iff.1 h) fun members _ group hgroup =>
    (length_instances_of_groupOf hgroup).symm
  rw [List.length_flatMap, ← hlengths, ← List.length_flatMap,
    (Table.perm_classes o.table _).length_eq, List.length_zipIdx]
  rfl

/-- A leaf has an instance for every row of its table. -/
theorem instanceCount_of_drawMark {config : Config} {path : NodePath} {mark : MarkKind}
    {e : ResolvedEncoding} {o : Pipeline.Outcome} {node : SceneNode}
    (h : drawMark config path mark e o = .ok node) : node.markCount = o.table.height := by
  obtain ⟨-, -, groups, hgroups, rfl⟩ := drawMark_eq_ok_iff.1 h
  rw [SceneNode.markCount_marks]
  exact length_instances_of_markGroups hgroups

/-! ### Views -/

/-- Children that are put in their places are all counted. -/
theorem markCount_arrange (path : NodePath) (e : ResolvedEncoding) (composition : Composition)
    (panels : List (Option (String × Cell) × SceneNode)) :
    (arrange path e composition panels).markCount =
      (panels.map fun panel => panel.2.markCount).sum := by
  rw [arrange_eq_group, SceneNode.markCount_group]
  conv => rhs; rw [← map_content_placed composition panels, List.map_map]
  rfl

/-- A view without aggregates draws every row once for each of its marks. -/
theorem markCount_of_evaluate {config : Config} {v : View}
    (hv : v.AllHeads ViewHead.HasNoAggregate) {t : Table} {inherited : Channels} {path : NodePath}
    {node : SceneNode}
    (h : evaluate config t inherited path v = .ok node) :
    node.markCount = t.height * v.markNodes := by
  induction v generalizing t inherited path node with
  | mark head kind =>
    have hown := View.allHeads_mark.1 hv
    obtain ⟨o, e, hprepare, hdraw⟩ := evaluate_mark_eq_ok_iff.1 h
    rw [instanceCount_of_drawMark hdraw, height_of_prepare hown hprepare, View.markNodes,
      Nat.mul_one]
  | nested head child ih =>
    obtain ⟨hown, hchild⟩ := View.allHeads_nested.1 hv
    rw [View.markNodes]
    cases hdetail : head.encoding.detailField? with
    | none =>
      obtain ⟨o, e, composition, below, hprepare, -, hbelow, rfl⟩ :=
        (evaluate_nested_eq_ok_iff hdetail).1 h
      rw [markCount_arrange, List.map_singleton, List.sum_singleton, ih hchild hbelow,
        height_of_prepare hown hprepare]
    | some field =>
      obtain ⟨o, e, composition, cells, panels, hprepare, hplan, hpanels, rfl⟩ :=
        (evaluate_facet_eq_ok_iff hdetail).1 h
      have hcells := (facetPlan_eq_ok_iff.1 hplan).2.1
      -- Each panel counts its own rows, and the panels split those of the table.
      have hcounts := map_eq_map_of_forall₂ hpanels fun cell _ panel hpanel =>
        (ih hchild hpanel.2).symm
      rw [markCount_arrange, ← hcounts, List.sum_map_mul_right, Table.sum_height_panels hcells,
        height_of_prepare hown hprepare]
  | concat head children ih =>
    obtain ⟨hown, hchildren⟩ := View.allHeads_concat.1 hv
    obtain ⟨o, e, composition, nodes, hprepare, -, hnodes, rfl⟩ := evaluate_concat_eq_ok_iff.1 h
    have hcounts : children.zipIdx.map (fun child => o.table.height * child.1.markNodes) =
        nodes.map SceneNode.markCount :=
      map_eq_map_of_forall₂ hnodes fun child hmem below hbelow => by
        have hmem : child.1 ∈ children := List.fst_mem_of_mem_zipIdx hmem
        exact (ih child.1 hmem (hchildren child.1 hmem) hbelow).symm
    have hnumbers : children.zipIdx.map (fun child => child.1.markNodes) =
        children.map View.markNodes := by
      conv => rhs; rw [← List.zipIdx_map_fst 0 children, List.map_map]
      rfl
    rw [markCount_arrange, List.map_map, View.markNodes, View.markNodesOf_eq_sum,
      ← height_of_prepare hown hprepare, ← hnumbers, ← List.sum_map_mul_left, hcounts]
    rfl

/-- If no node of a view aggregates, its scene has an instance for every row of
    the table and every mark of the view: facets, nested views, lists and bins
    neither lose nor duplicate a row. -/
theorem markCount_eq_height_mul_markNodes {config : Config} {v : View} {t : Table} {scene : Scene}
    (hv : v.AllHeads ViewHead.HasNoAggregate) (h : compile config v t = .ok scene) :
    scene.markCount = t.height * v.markNodes := by
  obtain ⟨-, -, h⟩ := bind_eq_ok_iff.1 h
  obtain ⟨root, hroot, h⟩ := bind_eq_ok_iff.1 h
  cases h
  exact markCount_of_evaluate hv hroot

/-- For every site, its visits as points and in bins of their lengths. -/
def binnedSites : View :=
  .nested { encoding := { detail := some (.field "site" none) } }
    (.concat {} [
      .mark {} .point,
      .mark { steps := [.bin ⟨"length", "bucket", none, none⟩]
              encoding := { x := some (.field "bucket" none) } } .bar])

/-- Three visits to two sites, and their lengths. -/
def timedVisits : Table :=
  ⟨["site", "length"],
    [[.text "B", .num 1.0], [.text "A", .num 5.0], [.text "B", .num 2.0]]⟩

/-- Two marks draw the three visits. -/
theorem markCount_eq_height_mul_markNodes_of_visits :
    ∃ scene, binnedSites.AllHeads ViewHead.HasNoAggregate ∧
      compile {} binnedSites timedVisits = .ok scene ∧ scene.markCount = 3 * 2 := by
  have hsteps : binnedSites.AllHeads ViewHead.HasNoAggregate := by
    simp [binnedSites, ViewHead.HasNoAggregate]
  have hok : (compile {} binnedSites timedVisits).isOk = true := by decide +kernel
  cases hscene : compile {} binnedSites timedVisits with
  | error failure => rw [hscene] at hok; cases hok
  | ok scene =>
    have hcount := markCount_eq_height_mul_markNodes hsteps hscene
    exact ⟨scene, hsteps, rfl, hcount⟩

end PlotGrammar
