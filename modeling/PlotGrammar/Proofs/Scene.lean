import Mathlib.Algebra.Ring.Nat
import PlotGrammar.Scene.Basic

/-! # Inside a scene

  `Holds n node` says that `n` is a node or stands somewhere below it. The
  leaves of a scene are the leaves that it holds (`holds_of_mem_leaves`,
  `mem_leaves_of_holds`).
-/

namespace PlotGrammar

namespace SceneNode

/-- To show something of every node of a scene, show it of a leaf, and of an
    inner node if it holds of its children. -/
@[elab_as_elim, induction_eliminator]
theorem induction {motive : SceneNode → Prop} (marks : ∀ leaf, motive (.marks leaf))
    (group : ∀ head children, (∀ child ∈ children, motive child.node) →
      motive (.group head children))
    (node : SceneNode) : motive node :=
  match node with
  | .marks leaf => marks leaf
  | .group head children => group head children fun child _ => induction marks group child.node
termination_by sizeOf node
decreasing_by
  -- A node is smaller than its place, and the place than the list of children.
  have hmem := List.sizeOf_lt_of_mem ‹child ∈ children›
  have hnode : sizeOf child.node < sizeOf child := by
    cases child
    simp only [Placed.mk.sizeOf_spec]
    omega
  simp only [SceneNode.group.sizeOf_spec]
  omega

/-- A node holds itself and what its children hold. -/
inductive Holds (n : SceneNode) : SceneNode → Prop where
  | self : Holds n n
  | inside {head : GroupHead} {children : List (Placed SceneNode)} {child : Placed SceneNode}
      (hmem : child ∈ children) (h : Holds n child.node) : Holds n (.group head children)

/-- The leaves of a list of children are those of its members, in order. -/
theorem leavesOf_eq_flatMap (children : List (Placed SceneNode)) :
    leavesOf children = children.flatMap fun child => child.node.leaves := by
  induction children with
  | nil => rfl
  | cons child rest ih =>
    obtain ⟨placement, facet, node⟩ := child
    rw [leavesOf, ih, List.flatMap_cons]

theorem mem_leavesOf {leaf : MarkLeaf} {children : List (Placed SceneNode)} :
    leaf ∈ leavesOf children ↔ ∃ child ∈ children, leaf ∈ child.node.leaves := by
  rw [leavesOf_eq_flatMap, List.mem_flatMap]

/-- The leaves of a node stand somewhere below it. -/
theorem holds_of_mem_leaves {leaf : MarkLeaf} {node : SceneNode} (h : leaf ∈ node.leaves) :
    Holds (.marks leaf) node := by
  induction node with
  | marks other =>
    rw [leaves, List.mem_singleton] at h
    rw [h]
    exact .self
  | group head children ih =>
    rw [leaves, mem_leavesOf] at h
    obtain ⟨child, hmem, h⟩ := h
    exact .inside hmem (ih child hmem h)

/-- A leaf that stands somewhere below a node is one of its leaves. -/
theorem mem_leaves_of_holds {leaf : MarkLeaf} {node : SceneNode} (h : Holds (.marks leaf) node) :
    leaf ∈ node.leaves := by
  induction h with
  | self =>
    rw [leaves]
    exact List.mem_singleton_self leaf
  | inside hmem _ ih =>
    rw [leaves, mem_leavesOf]
    exact ⟨_, hmem, ih⟩

/-- The resolved channels and the controls of a node. -/
def encoding : SceneNode → ResolvedEncoding
  | .marks leaf => leaf.encoding
  | .group head _ => head.encoding

/-! ### Counting instances -/

/-- A leaf counts its own instances. -/
theorem markCount_marks (leaf : MarkLeaf) : (marks leaf).markCount = leaf.instanceCount := by
  simp [markCount, leaves]

/-- An inner node counts what its children count. -/
theorem markCount_group (head : GroupHead) (children : List (Placed SceneNode)) :
    (group head children).markCount = (children.map fun child => child.node.markCount).sum := by
  change ((leavesOf children).map MarkLeaf.instanceCount).sum = _
  induction children with
  | nil => rfl
  | cons child rest ih =>
    rw [leavesOf_eq_flatMap, List.flatMap_cons, List.map_append, List.sum_append,
      ← leavesOf_eq_flatMap, ih, List.map_cons, List.sum_cons]
    rfl

/-! ### Changing tables -/

mutual

/-- The node with other tables at its leaves, and the same for all else. -/
def mapTables (f : Table → Table) : SceneNode → SceneNode
  | .marks leaf => .marks { leaf with table := f leaf.table }
  | .group head children => .group head (mapTablesOf f children)

/-- Children with other tables at their leaves. -/
def mapTablesOf (f : Table → Table) : List (Placed SceneNode) → List (Placed SceneNode)
  | [] => []
  | ⟨placement, facet, node⟩ :: rest =>
    ⟨placement, facet, node.mapTables f⟩ :: mapTablesOf f rest

end

theorem mapTablesOf_eq_map (f : Table → Table) (children : List (Placed SceneNode)) :
    mapTablesOf f children =
      children.map fun child => { child with node := child.node.mapTables f } := by
  induction children with
  | nil => rfl
  | cons child rest ih =>
    obtain ⟨placement, facet, node⟩ := child
    rw [mapTablesOf, ih, List.map_cons]

end SceneNode

end PlotGrammar
