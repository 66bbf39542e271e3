/-! # Node paths

  The place of a node in a tree, as the child positions on the way from the
  root. A single nested child has position `0`.
-/

namespace PlotGrammar

/-- The child positions from the root. -/
structure NodePath where
  indices : List Nat
deriving DecidableEq, Repr

namespace NodePath

/-- The root. -/
def root : NodePath := ⟨[]⟩

/-- The path of a child. -/
def child (p : NodePath) (index : Nat) : NodePath := ⟨p.indices ++ [index]⟩

/-- How deep the node is below the root. -/
def depth (p : NodePath) : Nat := p.indices.length

/-- The characters of a path: a slash before every position, and a single
    slash for the root. -/
def characters (p : NodePath) : List Char :=
  if p.indices.isEmpty then ['/']
  else p.indices.flatMap fun i => '/' :: Nat.toDigits 10 i

/-- The text of a path. -/
def display (p : NodePath) : String := String.ofList p.characters

end NodePath

end PlotGrammar
