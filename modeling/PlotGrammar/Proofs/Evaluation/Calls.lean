import PlotGrammar.Proofs.Evaluation.Traversal
import PlotGrammar.Proofs.Scene

/-! # The calls of an evaluation

  Evaluating a view evaluates its children, each over a table and with
  channels of its own. A `Call` is one such evaluation with its arguments,
  `Makes` leads from the call for a node to the calls for its children, and
  `Reached` holds of the calls that compiling a view comes to.

  Every node of a scene is the result of a call that was reached
  (`Reached.exists_of_holds`). What holds of all these calls is shown by one
  step along `Makes`, such as that a call is for the node to which its path
  leads from the root (`Reached.exists_above`).
-/

namespace PlotGrammar

/-- The arguments of an evaluation. -/
structure Call where
  /-- The table that the node is given. -/
  table : Table
  /-- The channels of the nodes above. -/
  inherited : Channels
  /-- The place of the node. -/
  path : NodePath
  /-- The node. -/
  view : View

namespace Call

/-- Evaluate a call. -/
def run (config : Config) (c : Call) : Except Failure SceneNode :=
  evaluate config c.table c.inherited c.path c.view

/-- The calls that the call for a node makes for its children: over its table,
    or over the rows of a panel, and with its channels. -/
inductive Makes (config : Config) : Call → Call → Prop where
  /-- For a single nested view. -/
  | nested {t : Table} {inherited : Channels} {path : NodePath} {head : ViewHead} {child : View}
      {o : Pipeline.Outcome} {e : ResolvedEncoding}
      (hprepare : prepare config t inherited head = .ok (o, e))
      (hdetail : head.encoding.detailField? = none) :
      Makes config ⟨t, inherited, path, .nested head child⟩
        ⟨o.table, inherit inherited head.encoding, path.child 0, child⟩
  /-- For a panel of a facet. -/
  | panel {t : Table} {inherited : Channels} {path : NodePath} {head : ViewHead} {child : View}
      {o : Pipeline.Outcome} {e : ResolvedEncoding} {field : String} {cells : List Cell}
      {cell : Cell}
      (hprepare : prepare config t inherited head = .ok (o, e))
      (hdetail : head.encoding.detailField? = some field)
      (hcells : o.table.distinct? field = some cells) (hcell : cell ∈ cells) :
      Makes config ⟨t, inherited, path, .nested head child⟩
        ⟨o.table.filterEq field cell, inherit inherited head.encoding, path.child 0, child⟩
  /-- For a member of a list. -/
  | member {t : Table} {inherited : Channels} {path : NodePath} {head : ViewHead}
      {children : List View} {o : Pipeline.Outcome} {e : ResolvedEncoding} {index : Nat}
      {child : View} (hprepare : prepare config t inherited head = .ok (o, e))
      (hchild : children[index]? = some child) :
      Makes config ⟨t, inherited, path, .concat head children⟩
        ⟨o.table, inherit inherited head.encoding, path.child index, child⟩

/-- One of the calls that a call makes gives a node. -/
def GivesBelow (config : Config) (c : Call) (node : SceneNode) : Prop :=
  ∃ c', c.Makes config c' ∧ c'.run config = .ok node

end Call

/-- The calls that compiling a view over a table comes to. -/
inductive Reached (config : Config) (v : View) (t : Table) : Call → Prop where
  | root : Reached config v t ⟨t, .empty, .root, v⟩
  | next {c c' : Call} (h : Reached config v t c) (hmakes : c.Makes config c') :
      Reached config v t c'

/-! ### What a call gives -/

/-- Putting children in their places makes an inner node of no other children,
    so what holds of them holds of its children. -/
theorem exists_group_of_arrange {path : NodePath} {e : ResolvedEncoding} {composition : Composition}
    {nodes : List (Option (String × Cell) × SceneNode)} {node : SceneNode} {P : SceneNode → Prop}
    (h : arrange path e composition nodes = node)
    (hnodes : ∀ facet child, (facet, child) ∈ nodes → P child) :
    ∃ head children, node = .group head children ∧ ∀ child ∈ children, P child.node := by
  refine ⟨_, _, h.symm, fun child hmem => ?_⟩
  obtain ⟨place, -, ⟨facet, placed⟩, hplaced, rfl⟩ := exists_of_mem_zipWith hmem
  exact hnodes facet placed hplaced

namespace Call

variable {config : Config} {c : Call}

/-- A call gives the leaf that drawing the mark of its node gives, or an inner
    node whose children are what the calls give that it makes. -/
theorem run_cases {node : SceneNode} (h : c.run config = .ok node) :
    (∃ head o leaf, node = .marks leaf ∧ c.view = .mark head leaf.mark ∧ c.path = leaf.path ∧
      prepare config c.table c.inherited head = .ok (o, leaf.encoding) ∧
      o.table = leaf.table ∧ markGroups o leaf.encoding = .ok leaf.groups) ∨
    (∃ head children, node = .group head children ∧
      ∀ child ∈ children, c.GivesBelow config child.node) := by
  obtain ⟨t, inherited, path, v⟩ := c
  unfold run at h
  cases v with
  | mark head kind =>
    obtain ⟨o, e, hprepare, h⟩ := evaluate_mark_eq_ok_iff.1 h
    obtain ⟨-, -, groups, hgroups, rfl⟩ := drawMark_eq_ok_iff.1 h
    exact .inl ⟨head, o, _, rfl, rfl, rfl, hprepare, rfl, hgroups⟩
  | nested head view =>
    right
    cases hdetail : head.encoding.detailField? with
    | none =>
      obtain ⟨o, e, composition, below, hprepare, -, hbelow, h⟩ :=
        (evaluate_nested_eq_ok_iff hdetail).1 h
      refine exists_group_of_arrange h.symm fun facet child hmem => ?_
      cases List.mem_singleton.1 hmem
      exact ⟨_, .nested hprepare hdetail, hbelow⟩
    | some field =>
      obtain ⟨o, e, composition, cells, panels, hprepare, hplan, hpanels, h⟩ :=
        (evaluate_facet_eq_ok_iff hdetail).1 h
      -- A panel comes from one of the cells that the facet was planned for.
      refine exists_group_of_arrange h.symm fun facet child hmem => ?_
      obtain ⟨cell, hcell, -, hpanel⟩ := exists_of_forall₂_of_mem hpanels hmem
      exact ⟨_, .panel hprepare hdetail (facetPlan_eq_ok_iff.1 hplan).2.1 hcell, hpanel⟩
  | concat head views =>
    obtain ⟨o, e, composition, nodes, hprepare, -, hnodes, h⟩ := evaluate_concat_eq_ok_iff.1 h
    -- A member of the list is evaluated at its position in the list.
    right
    refine exists_group_of_arrange h.symm fun facet child hmem => ?_
    obtain ⟨node, hnode, heq⟩ := List.mem_map.1 hmem
    cases heq
    obtain ⟨⟨view, index⟩, hview, hrun⟩ := exists_of_forall₂_of_mem hnodes hnode
    exact ⟨_, .member hprepare (List.mk_mem_zipIdx_iff_getElem?.1 hview), hrun⟩

/-- A leaf is what drawing the mark of the node gives. -/
theorem exists_of_run_eq_marks {leaf : MarkLeaf} (h : c.run config = .ok (.marks leaf)) :
    ∃ head o, c.view = .mark head leaf.mark ∧ c.path = leaf.path ∧
      prepare config c.table c.inherited head = .ok (o, leaf.encoding) ∧
      o.table = leaf.table ∧ markGroups o leaf.encoding = .ok leaf.groups := by
  rcases run_cases h with ⟨head, o, other, hleaf, hdrawn⟩ | ⟨head, children, hgroup, -⟩
  · cases hleaf
    exact ⟨head, o, hdrawn⟩
  · cases hgroup

/-- Every child of an inner node is what a call gives that the call for the
    node makes. -/
theorem givesBelow_of_mem {head : GroupHead} {children : List (Placed SceneNode)}
    (h : c.run config = .ok (.group head children)) {child : Placed SceneNode}
    (hmem : child ∈ children) : c.GivesBelow config child.node := by
  rcases run_cases h with ⟨mark, o, leaf, hleaf, -⟩ | ⟨other, others, hgroup, hmade⟩
  · cases hleaf
  · cases hgroup
    exact hmade child hmem

/-- A call that is made is for the child of the node at the last position of
    its path. -/
theorem Makes.exists_child {c' : Call} (h : c.Makes config c') :
    ∃ index, c.view.children[index]? = some c'.view ∧ c'.path = c.path.child index := by
  cases h with
  | nested _ _ => exact ⟨0, rfl, rfl⟩
  | panel _ _ _ _ => exact ⟨0, rfl, rfl⟩
  | member _ hchild => exact ⟨_, hchild, rfl⟩

end Call

/-! ### Where a call stands -/

/-- The nodes above the node at a path below a view, from the view on. -/
def View.above? (v : View) : List Nat → Option (List View)
  | [] => some []
  | index :: rest => do
    let child ← v.children[index]?
    let above ← child.above? rest
    return v :: above

/-- Going on to a child puts the node among those above. -/
theorem View.above?_snoc {v w child : View} {path : List Nat} {above : List View} {index : Nat}
    (habove : v.above? path = some above) (hat : v.at? path = some w)
    (hchild : w.children[index]? = some child) :
    v.above? (path ++ [index]) = some (above ++ [w]) ∧ v.at? (path ++ [index]) = some child := by
  -- The path is read from the root, so the node that it starts at changes.
  induction path generalizing v above with
  | nil =>
    cases habove
    cases hat
    simp [above?, at?, hchild]
  | cons step path ih =>
    cases hstep : v.children[step]? with
    | none => simp [above?, hstep] at habove
    | some next =>
      simp only [above?, hstep, Option.bind_eq_bind, Option.bind_some,
        Option.bind_eq_some_iff] at habove
      obtain ⟨below, hbelow, habove⟩ := habove
      cases habove
      rw [at?, hstep, Option.bind_some] at hat
      obtain ⟨habove, hat⟩ := ih hbelow hat
      simp [above?, at?, hstep, habove, hat]

/-- A call that was reached is for the node at its path. -/
theorem Reached.exists_above {config : Config} {v : View} {t : Table} {c : Call}
    (h : Reached config v t c) :
    ∃ above, v.above? c.path.indices = some above ∧ v.at? c.path.indices = some c.view := by
  induction h with
  | root => exact ⟨[], rfl, rfl⟩
  | next _ hmakes ih =>
    obtain ⟨above, habove, hat⟩ := ih
    obtain ⟨index, hchild, hpath⟩ := hmakes.exists_child
    rw [hpath]
    exact ⟨_, View.above?_snoc habove hat hchild⟩

/-! ### Scenes -/

/-- Every node of the scene is the result of a call that was reached. -/
theorem Reached.exists_of_holds {config : Config} {v : View} {t : Table} {c : Call}
    {n node : SceneNode} (hc : Reached config v t c) (h : c.run config = .ok node)
    (hn : SceneNode.Holds n node) : ∃ c', Reached config v t c' ∧ c'.run config = .ok n := by
  -- Induction from the root of the scene down to the node, along with the
  -- call that gave the part of the scene around it.
  induction hn generalizing c with
  | self => exact ⟨c, hc, h⟩
  | inside hmem _ ih =>
    obtain ⟨c', hmakes, hc'⟩ := Call.givesBelow_of_mem h hmem
    exact ih (hc.next hmakes) hc'

/-- Every node of the scene of a compiled view is the result of a call that was
    reached. -/
theorem exists_reached_of_holds {config : Config} {v : View} {t : Table} {scene : Scene}
    (h : compile config v t = .ok scene) {n : SceneNode} (hn : SceneNode.Holds n scene.root) :
    ∃ c, Reached config v t c ∧ c.run config = .ok n := by
  have hroot := (compile_eq_ok_iff.1 h).2
  exact Reached.root.exists_of_holds hroot hn

/-- Every leaf of a compiled view was drawn by a call that was reached. -/
theorem exists_reached_of_mem_leaves {config : Config} {v : View} {t : Table} {scene : Scene}
    (h : compile config v t = .ok scene) {leaf : MarkLeaf} (hleaf : leaf ∈ scene.leaves) :
    ∃ c, Reached config v t c ∧ c.run config = .ok (.marks leaf) :=
  exists_reached_of_holds h (SceneNode.holds_of_mem_leaves hleaf)

/-- A node of a scene was made over a table: it is what a call gave that was
    reached, and the table is where the steps of its own node of the view led
    to from the table that the call was given. -/
def MadeOver (config : Config) (v : View) (t : Table) (n : SceneNode) (table : Table) : Prop :=
  ∃ c o e, Reached config v t c ∧ c.run config = .ok n ∧
    prepare config c.table c.inherited c.view.head = .ok (o, e) ∧ o.table = table

end PlotGrammar
