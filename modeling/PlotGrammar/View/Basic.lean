import PlotGrammar.Encoding
import PlotGrammar.Failure
import PlotGrammar.Step

/-! # Views

  A view is a tree. A leaf draws a mark, and an inner node holds a single
  nested view or a list of views. Every node has a head: the steps that derive
  its table and the encoding of its instances.
-/

namespace PlotGrammar

/-- A kind of mark. -/
inductive MarkKind where
  | point
  | bar
  | line
  | area
  | rect
  | rule
  | tick
deriving DecidableEq, Repr

namespace MarkKind

/-- Every kind. -/
def all : List MarkKind := [.point, .bar, .line, .area, .rect, .rule, .tick]

/-- The name of a kind of mark. -/
def name : MarkKind → String
  | .point => "point"
  | .bar => "bar"
  | .line => "line"
  | .area => "area"
  | .rect => "rect"
  | .rule => "rule"
  | .tick => "tick"

/-- The kind of a name. -/
def ofName? (s : String) : Option MarkKind := all.find? fun m => m.name == s

end MarkKind

/-- What every node has. -/
structure ViewHead where
  /-- The steps that derive the table of the node. -/
  steps : List Step := []
  /-- The encoding of the node. -/
  encoding : Encoding := {}
deriving BEq

/-- A view. -/
inductive View where
  /-- A leaf that draws a mark. -/
  | mark (head : ViewHead) (kind : MarkKind)
  /-- A single nested view. -/
  | nested (head : ViewHead) (child : View)
  /-- A list of views. -/
  | concat (head : ViewHead) (children : List View)

namespace View

/-- The head of a node. -/
def head : View → ViewHead
  | .mark head _ => head
  | .nested head _ => head
  | .concat head _ => head

/-- The children of a node. -/
def children : View → List View
  | .mark _ _ => []
  | .nested _ child => [child]
  | .concat _ children => children

/-- The node at a path below a view. -/
def at? (v : View) : List Nat → Option View
  | [] => some v
  | index :: rest => (v.children[index]?).bind fun child => child.at? rest

mutual

/-- The number of nodes. -/
def nodeCount : View → Nat
  | .mark _ _ => 1
  | .nested _ child => 1 + child.nodeCount
  | .concat _ children => 1 + nodeCounts children

/-- The number of nodes of a list of views. -/
def nodeCounts : List View → Nat
  | [] => 0
  | v :: rest => v.nodeCount + nodeCounts rest

end

/-! ### Equality

  Two views are equal if they are written alike. Constants are compared as
  cells are, but bucket widths and column counts as numbers, so a view with a
  NaN among them is not equal to itself.
-/

mutual

/-- Whether two views are equal. -/
def beq : View → View → Bool
  | .mark h m, .mark h' m' => h == h' && m == m'
  | .nested h v, .nested h' v' => h == h' && v.beq v'
  | .concat h vs, .concat h' vs' => h == h' && beqs vs vs'
  | _, _ => false

/-- Whether two lists of views are equal. -/
def beqs : List View → List View → Bool
  | [], [] => true
  | v :: vs, v' :: vs' => v.beq v' && beqs vs vs'
  | _, _ => false

end

instance : BEq View := ⟨beq⟩

end View

end PlotGrammar
