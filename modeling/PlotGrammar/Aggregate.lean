import PlotGrammar.Cell

/-! # Aggregate functions

  A function reduces the cells of a group to one cell. The numeric functions
  look at finite numbers only and give null where there is nothing to reduce.
  Sums start at `-0.0`, the neutral element of addition, and add from left to
  right.
-/

namespace PlotGrammar

/-- An aggregate function. -/
inductive AggregateFunction where
  /-- The number of rows. -/
  | count
  /-- The number of values that are not null. -/
  | valid
  /-- The number of nulls. -/
  | missing
  /-- The number of different values, null included. -/
  | distinct
  | sum
  | mean
  | median
  | min
  | max
  /-- The sample variance. -/
  | variance
  /-- The sample standard deviation. -/
  | stdev
deriving DecidableEq, Repr

namespace AggregateFunction

/-- Every function. -/
def all : List AggregateFunction :=
  [.count, .valid, .missing, .distinct, .sum, .mean, .median, .min, .max, .variance, .stdev]

/-- The name of a function. -/
def name : AggregateFunction → String
  | .count => "count"
  | .valid => "valid"
  | .missing => "missing"
  | .distinct => "distinct"
  | .sum => "sum"
  | .mean => "mean"
  | .median => "median"
  | .min => "min"
  | .max => "max"
  | .variance => "variance"
  | .stdev => "stdev"

/-- The function of a name; the mean has a second one. -/
def ofName? (s : String) : Option AggregateFunction :=
  if s = "average" then some .mean else all.find? fun f => f.name == s

/-- Whether the function reduces a field; only counting does not. -/
def requiresField (f : AggregateFunction) : Bool := f != .count

/-! ### Numbers -/

/-- The finite numbers among the cells. -/
def numbers (cells : List Cell) : List Float := cells.filterMap Cell.finite?

/-- The sum from left to right. -/
def total (xs : List Float) : Float := xs.foldl (· + ·) (-0.0)

/-- The mean of numbers. -/
def average (xs : List Float) : Float := total xs / Float.ofNat xs.length

/-- The numbers in ascending order. -/
def ascending (xs : List Float) : List Float :=
  xs.mergeSort fun a b => Binary64.orderKey a ≤ Binary64.orderKey b

/-- The middle number, or the mean of the two middle ones. -/
def middle (xs : List Float) : Float :=
  let sorted := ascending xs
  let half := xs.length / 2
  if xs.length % 2 = 0 then (sorted.getD (half - 1) 0.0 + sorted.getD half 0.0) / 2.0
  else sorted.getD half 0.0

/-- The smaller of two numbers. -/
def lesser (a b : Float) : Float := if b < a then b else a

/-- The larger of two numbers. -/
def greater (a b : Float) : Float := if a < b then b else a

/-- Combine the numbers from left to right, if there are any. -/
def reduce? (f : Float → Float → Float) : List Float → Option Float
  | [] => none
  | x :: xs => some (xs.foldl f x)

/-- The sample variance, of at least two numbers. -/
def sampleVariance? (xs : List Float) : Option Float :=
  if xs.length < 2 then none
  else
    let mean := average xs
    some (total (xs.map fun x => (x - mean) * (x - mean)) / Float.ofNat (xs.length - 1))

/-! ### Reduction -/

/-- A count as a cell. -/
def counted (n : Nat) : Cell := .num (Float.ofNat n)

/-- A number as a cell; null if there is none. -/
def numeric : Option Float → Cell
  | some x => .num x
  | none => .null

/-- Reduce a group of `rows` rows whose cells are given. -/
def apply (f : AggregateFunction) (rows : Nat) (cells : List Cell) : Cell :=
  let xs := numbers cells
  match f with
  | .count => counted rows
  | .valid => counted (cells.filter fun c => !c.isNull).length
  | .missing => counted (cells.filter Cell.isNull).length
  | .distinct => counted cells.eraseDups.length
  | .sum => .num (total xs)
  | .mean => numeric (if xs.isEmpty then none else some (average xs))
  | .median => numeric (if xs.isEmpty then none else some (middle xs))
  | .min => numeric (reduce? lesser xs)
  | .max => numeric (reduce? greater xs)
  | .variance => numeric (sampleVariance? xs)
  | .stdev => numeric ((sampleVariance? xs).map Float.sqrt)

end AggregateFunction

end PlotGrammar
