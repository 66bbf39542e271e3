import PlotGrammar.Config.Basic
import PlotGrammar.Pipeline
import PlotGrammar.Scene.Basic
import PlotGrammar.View.Validation

/-! # Compiling views

  A view is compiled over a table from the root down. Every node runs its
  steps over the table that it is given, resolves its channels against the
  result, and then draws a mark or hands its table and its channels on to its
  children.

  - A mark has an instance for every row, in groups by the grouping of the
    steps and by the field of the grouping channel.
  - A single nested view whose own node binds the grouping channel to a field
    becomes a facet: one panel for every cell of the field, over its rows.
  - Any other inner node has one child for each of its views.

  A scene is given only if no part of the view fails. The first failure in the
  order of evaluation counts and is reported at its node.
-/

namespace PlotGrammar

/-! ### Limits -/

/-- Refuse more than a limit allows. -/
def checkLimit (limit : Limit) (allowed : Option Nat) (actual : Nat) : Except Failure Unit :=
  match allowed with
  | none => .ok ()
  | some allowed =>
    if allowed < actual then .error (.budgetExceeded .root limit allowed actual) else .ok ()

/-- Settle the layout of a node. -/
def Config.settleLayout (config : Config) (layout : Option Layout) (faceted : Bool) :
    Except Failure Composition :=
  match settle layout faceted config.wrapColumns with
  | .ok composition => .ok composition
  | .error fault => .error (.invalidLayout .root fault)

/-! ### Marks -/

/-- The fields that group the instances of a mark: those of the steps, and the
    field of the grouping channel after them. -/
def groupingFields (groupBy : List String) (detail : Option String) : List String :=
  match detail with
  | none => groupBy
  | some field => Pipeline.withName groupBy field

/-- Bind a channel for a row of a table. -/
def Binding.bind (o : Pipeline.Outcome) (row : List Cell) : Binding → Except Failure BoundValue
  | .constant value => .ok (.constant value)
  | .field name type =>
    match o.table.fieldIndex? name with
    | none => .error (.unknownField .root name)
    | some position =>
      .ok (.field name type (Table.cellAt row position) (o.aggregated.contains name))

/-- The instance of a row. -/
def instanceOf (o : Pipeline.Outcome) (encoding : ResolvedEncoding) (row : List Cell) (index : Nat) :
    Except Failure MarkInstance := do
  let channels ← (encoding.channels.filter Channel.isVisual).mapM (Binding.bind o row)
  return ⟨index, channels⟩

/-- The group of a class of rows. -/
def groupOf (o : Pipeline.Outcome) (encoding : ResolvedEncoding) (fields : List String)
    (group : List Cell × List (List Cell × Nat)) : Except Failure MarkGroup := do
  let instances ← group.2.mapM fun member => instanceOf o encoding member.1 member.2
  return ⟨fields.zip group.1, group.2.map Prod.snd, instances⟩

/-- The groups of a mark. -/
def markGroups (o : Pipeline.Outcome) (encoding : ResolvedEncoding) : Except Failure (List MarkGroup) := do
  let fields := (groupingFields o.groupBy encoding.detailField?).filter o.table.hasField
  (o.table.classes (fields.filterMap o.table.fieldIndex?)).mapM (groupOf o encoding fields)

/-- Draw a mark. -/
def drawMark (config : Config) (path : NodePath) (mark : MarkKind) (encoding : ResolvedEncoding)
    (o : Pipeline.Outcome) : Except Failure SceneNode := do
  -- A mark has nothing to lay out, but a wrong directive is still refused.
  let _ ← config.settleLayout encoding.layout false
  checkLimit .markInstances config.limits.maxMarkInstances o.table.height
  let groups ← markGroups o encoding
  return .marks ⟨path, mark, encoding, o.table, groups⟩

/-! ### Inner nodes -/

/-- Put children in their places. -/
def arrange (path : NodePath) (encoding : ResolvedEncoding) (composition : Composition)
    (children : List (Option (String × Cell) × SceneNode)) : SceneNode :=
  let (arrangement, placements) := plan composition children.length
  .group ⟨path, encoding, arrangement⟩
    (placements.zipWith (fun place child => ⟨place, child.1, child.2⟩) children)

/-- The layout of a facet and the cells that its panels stand for. -/
def facetPlan (config : Config) (t : Table) (layout : Option Layout) (field : String) :
    Except Failure (Composition × List Cell) := do
  let composition ← config.settleLayout layout true
  match t.distinct? field with
  | none => throw (.unknownField .root field)
  | some cells =>
    checkLimit .facets config.limits.maxFacets cells.length
    checkLimit .layoutChildren config.limits.maxLayoutChildren cells.length
    return (composition, cells)

/-- The layout of a list of children. -/
def concatPlan (config : Config) (layout : Option Layout) (count : Nat) :
    Except Failure Composition := do
  let composition ← config.settleLayout layout false
  checkLimit .layoutChildren config.limits.maxLayoutChildren count
  return composition

/-- Run the steps of a node and resolve its channels. -/
def prepare (config : Config) (t : Table) (inherited : Channels) (head : ViewHead) :
    Except Failure (Pipeline.Outcome × ResolvedEncoding) := do
  let outcome ← Pipeline.run config.maxBins t head.steps
    (inherit inherited head.encoding).fieldNames
  let encoding ← resolve outcome.table inherited head.encoding
  return (outcome, encoding)

/-! ### Evaluation -/

mutual

/-- Evaluate the view at a path over a table, with the channels of the nodes
    above it. -/
def evaluate (config : Config) (t : Table) (inherited : Channels) (path : NodePath) :
    View → Except Failure SceneNode
  | .mark head mark => locatedAt path do
    let (outcome, encoding) ← prepare config t inherited head
    drawMark config path mark encoding outcome
  | .nested head child => do
    let (outcome, encoding) ← locatedAt path (prepare config t inherited head)
    let channels := inherit inherited head.encoding
    match head.encoding.detailField? with
    | some field =>
      let (composition, cells) ←
        locatedAt path (facetPlan config outcome.table head.encoding.layout field)
      -- All panels show the one child, so they share its path; their places differ.
      let panels ← cells.mapM fun cell => do
        let rows := outcome.table.filterEq field cell
        let node ← evaluate config rows channels (path.child 0) child
        return (some (field, cell), node)
      return arrange path encoding composition panels
    | none =>
      let composition ← locatedAt path (config.settleLayout head.encoding.layout false)
      let node ← evaluate config outcome.table channels (path.child 0) child
      return arrange path encoding composition [(none, node)]
  | .concat head children => do
    let (outcome, encoding) ← locatedAt path (prepare config t inherited head)
    let composition ←
      locatedAt path (concatPlan config head.encoding.layout children.length)
    let channels := inherit inherited head.encoding
    let nodes ← evaluateAll config outcome.table channels path 0 children
    return arrange path encoding composition (nodes.map fun node => (none, node))

/-- Evaluate the children of a node from a position on. -/
def evaluateAll (config : Config) (t : Table) (inherited : Channels) (path : NodePath)
    (index : Nat) : List View → Except Failure (List SceneNode)
  | [] => .ok []
  | v :: rest => do
    let node ← evaluate config t inherited (path.child index) v
    let nodes ← evaluateAll config t inherited path (index + 1) rest
    return node :: nodes

end

/-- Compile a view: check its structure, then evaluate it. -/
def compile (config : Config) (v : View) (t : Table) : Except Failure Scene := do
  v.validate
  let root ← evaluate config t .empty .root v
  return ⟨root⟩

/-- Compile several views over one table, each for itself. -/
def compileBatch (config : Config) (views : List View) (t : Table) : List (Except Failure Scene) :=
  views.map fun v => compile config v t

end PlotGrammar
