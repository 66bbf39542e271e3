/-! # Steps

  The steps by which a node derives its table. An aggregate does not say what
  it groups by; the grouping is inferred from the columns in scope.
-/

namespace PlotGrammar

/-- Write the bucket labels of a numeric field. -/
structure BinStep where
  /-- The field to bin. -/
  field : String
  /-- The field that takes the labels. -/
  out : String
  /-- The bucket width, if it is given. -/
  width : Option Float
  /-- The most buckets when no width is given. -/
  maxBins : Option UInt64
deriving BEq

/-- Reduce every group of rows to one. -/
structure AggregateStep where
  /-- The name of the aggregate function. -/
  function : String
  /-- The field that is reduced; counting works without one. -/
  field : Option String
  /-- The field that takes the result. -/
  out : String
deriving DecidableEq

/-- One step of a node. -/
inductive Step where
  | bin (step : BinStep)
  | aggregate (step : AggregateStep)
deriving BEq

/-- The field that a step writes. -/
def Step.out : Step → String
  | .bin b => b.out
  | .aggregate a => a.out

end PlotGrammar
