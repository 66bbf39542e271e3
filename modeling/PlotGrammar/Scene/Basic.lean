import PlotGrammar.Layout.Plan
import PlotGrammar.Resolution
import PlotGrammar.View.Basic

/-! # Scenes

  What a renderer draws. A leaf holds the instances of a mark in groups, and
  an inner node holds its children with their places. The child of a faceted
  node also holds the field and the value that its panel stands for.
-/

namespace PlotGrammar

/-! ### Instances -/

/-- The value of a channel of an instance. -/
inductive BoundValue where
  /-- A constant of the encoding. -/
  | constant (value : Cell)
  /-- The cell of a field in the row of the instance; `aggregated` says
      whether an aggregate wrote the field. -/
  | field (name : String) (type : FieldType) (value : Cell) (aggregated : Bool)

/-- The cell of a bound value. -/
def BoundValue.value : BoundValue → Cell
  | .constant value => value
  | .field _ _ value _ => value

/-- One mark to draw. -/
structure MarkInstance where
  /-- The row that the instance stands for. -/
  row : Nat
  /-- The values of the visual channels. -/
  channels : ChannelMap BoundValue

/-- The instances that share a key, such as the points of one line. -/
structure MarkGroup where
  /-- The grouping fields with their cells. -/
  key : List (String × Cell)
  /-- The rows of the group. -/
  rows : List Nat
  /-- One instance for each row. -/
  instances : List MarkInstance

/-- A leaf of a scene. -/
structure MarkLeaf where
  /-- The node of the view. -/
  path : NodePath
  mark : MarkKind
  encoding : ResolvedEncoding
  /-- The table of the node. -/
  table : Table
  groups : List MarkGroup

namespace MarkLeaf

/-- The instances in the order of the groups. -/
def instances (leaf : MarkLeaf) : List MarkInstance := leaf.groups.flatMap MarkGroup.instances

/-- The number of instances. -/
def instanceCount (leaf : MarkLeaf) : Nat := leaf.instances.length

end MarkLeaf

/-! ### Nodes -/

/-- What every inner node has. -/
structure GroupHead where
  /-- The node of the view. -/
  path : NodePath
  encoding : ResolvedEncoding
  /-- The grid of the children. -/
  arrangement : Arrangement

/-- A child with its place. -/
structure Placed (α : Type) where
  placement : Placement
  /-- The field and the cell of a panel. -/
  facet : Option (String × Cell)
  node : α

/-- A node of a scene. -/
inductive SceneNode where
  /-- The instances of a mark. -/
  | marks (leaf : MarkLeaf)
  /-- Children with their places. -/
  | group (head : GroupHead) (children : List (Placed SceneNode))

namespace SceneNode

/-- The node of the view that a node of the scene comes from. -/
def path : SceneNode → NodePath
  | .marks leaf => leaf.path
  | .group head _ => head.path

mutual

/-- The leaves, from the first to the last. -/
def leaves : SceneNode → List MarkLeaf
  | .marks leaf => [leaf]
  | .group _ children => leavesOf children

/-- The leaves of a list of children. -/
def leavesOf : List (Placed SceneNode) → List MarkLeaf
  | [] => []
  | ⟨_, _, node⟩ :: rest => node.leaves ++ leavesOf rest

end

mutual

/-- The inner nodes, each before its children. -/
def groups : SceneNode → List (GroupHead × List (Placed SceneNode))
  | .marks _ => []
  | .group head children => (head, children) :: groupsOf children

/-- The inner nodes of a list of children. -/
def groupsOf : List (Placed SceneNode) → List (GroupHead × List (Placed SceneNode))
  | [] => []
  | ⟨_, _, node⟩ :: rest => node.groups ++ groupsOf rest

end

/-- The number of instances below a node. -/
def markCount (node : SceneNode) : Nat :=
  (node.leaves.map MarkLeaf.instanceCount).foldr (· + ·) 0

end SceneNode

/-- The rectangles of the children of a node. -/
def GroupHead.rectangles (head : GroupHead) (children : List (Placed SceneNode)) :
    List Rectangle :=
  children.map fun child => head.arrangement.rectangle child.placement

/-- A compiled view. -/
structure Scene where
  root : SceneNode

namespace Scene

/-- The number of instances. -/
def markCount (scene : Scene) : Nat := scene.root.markCount

/-- The leaves, from the first to the last. -/
def leaves (scene : Scene) : List MarkLeaf := scene.root.leaves

end Scene

end PlotGrammar
