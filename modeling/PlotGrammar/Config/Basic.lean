/-! # Configuration

  The bucket budget of bin steps, the column count of grids that do not give
  one, and the limits of an evaluation. A limit that is not set allows
  anything.
-/

namespace PlotGrammar

/-- The limits of an evaluation. -/
structure Limits where
  /-- The most panels of a facet. -/
  maxFacets : Option Nat := none
  /-- The most children of a layout. -/
  maxLayoutChildren : Option Nat := none
  /-- The most instances of a mark. -/
  maxMarkInstances : Option Nat := none
deriving DecidableEq, Repr

/-- A configuration. -/
structure Config where
  version : Nat := 1
  /-- The most buckets of a bin step that gives neither a width nor a number. -/
  maxBins : Nat := 10
  /-- The column count of grids that do not give one. -/
  wrapColumns : Option Nat := none
  limits : Limits := {}
deriving DecidableEq, Repr

end PlotGrammar
