import PlotGrammar.Aggregate
import PlotGrammar.Binning
import PlotGrammar.Step
import PlotGrammar.Table.Grouping

/-! # Pipelines

  The steps of a node are run in order over its table. A bin step writes a
  column of labels. An aggregate step replaces the table by one row for each
  group.

  The grouping of an aggregate is inferred. Its candidates are the fields that
  bin steps wrote, and then the dimensions of the node except for those that
  an aggregate wrote. The field that is reduced and the field that is written
  are no candidates.
-/

namespace PlotGrammar

/-- The most buckets of a bin step without a width. -/
def BinStep.mostBins (step : BinStep) (defaultMaxBins : Nat) : Nat :=
  (step.maxBins.map UInt64.toNat).getD defaultMaxBins

namespace Table

/-- Write the labels of the buckets of a field. -/
def binned (t : Table) (step : BinStep) (defaultMaxBins : Nat) : Except Failure Table :=
  match t.column? step.field with
  | none => .error (.unknownField .root step.field)
  | some column =>
    match Binning.fit column step.width (step.mostBins defaultMaxBins) with
    | .error cause => .error (.aborted .root cause)
    | .ok none => .ok (t.withColumn step.out (List.replicate t.height .null))
    | .ok (some binning) => .ok (t.withColumn step.out (column.map binning.label))

/-- The position of the field that an aggregate reduces, if it has one. -/
def inputIndex? (t : Table) (step : AggregateStep) : Except Failure (Option Nat) :=
  match step.field with
  | none => .ok none
  | some field =>
    match t.fieldIndex? field with
    | some position => .ok (some position)
    | none => .error (.unknownField .root field)

/-- One row for each group: its key and the reduced cell. -/
def reduced (t : Table) (f : AggregateFunction) (input : Option Nat) (out : String)
    (groupBy : List String) : Table :=
  let positions := groupBy.filterMap t.fieldIndex?
  let row (group : List Cell × List (List Cell × Nat)) : List Cell :=
    let cells := match input with
      | some position => group.2.map fun member => cellAt member.1 position
      | none => []
    group.1 ++ [f.apply group.2.length cells]
  ⟨groupBy ++ [out], (t.classes positions).map row⟩

/-- Reduce every group of rows to one. -/
def aggregated (t : Table) (step : AggregateStep) (groupBy : List String) :
    Except Failure Table := do
  match AggregateFunction.ofName? step.function with
  | none => throw (.unknownAggregate .root step.function)
  | some f =>
    let input ← t.inputIndex? step
    return t.reduced f input step.out groupBy

end Table

namespace Pipeline

/-- The state between two steps. -/
structure State where
  /-- The table so far. -/
  table : Table
  /-- The grouping of the last aggregate. -/
  groupBy : List String
  /-- The fields of the table that an aggregate wrote. -/
  aggregated : List String
  /-- The fields of the table that a bin step wrote. -/
  binned : List String
  /-- Whether there was an aggregate. -/
  anyAggregate : Bool

/-- Add a name to a list without repetition. -/
def withName (names : List String) (name : String) : List String :=
  if names.contains name then names else names ++ [name]

/-- Whether a field may be a group key of an aggregate step. -/
def mayGroup (t : Table) (step : AggregateStep) (field : String) : Bool :=
  field != step.out && step.field != some field && t.hasField field

/-- The inferred grouping of an aggregate step. -/
def inferredGroupBy (s : State) (step : AggregateStep) (dimensions : List String) : List String :=
  let candidates := s.binned ++ dimensions.filter fun d => !s.aggregated.contains d
  (candidates.filter (mayGroup s.table step)).eraseDups

/-- The state after one more step. -/
def State.next (defaultMaxBins : Nat) (dimensions : List String) (s : State) :
    Step → Except Failure State
  | .bin step => do
    let table ← s.table.binned step defaultMaxBins
    return { s with
      table := table
      binned := withName s.binned step.out
      aggregated := s.aggregated.filter (· != step.out) }
  | .aggregate step => do
    -- The grouping looks at the table before the step, the lists at the one after it.
    let groupBy := inferredGroupBy s step dimensions
    let table ← s.table.aggregated step groupBy
    return {
      table := table
      groupBy := groupBy
      binned := s.binned.filter table.hasField
      aggregated := withName (s.aggregated.filter table.hasField) step.out
      anyAggregate := true }

/-- What the steps of a node lead to. -/
structure Outcome where
  /-- The derived table. -/
  table : Table
  /-- The grouping of the last aggregate, or the fields of the bin steps if
      there was none. -/
  groupBy : List String
  /-- The fields that an aggregate wrote. -/
  aggregated : List String

/-- The state before the first step. -/
def State.initial (t : Table) : State := ⟨t, [], [], [], false⟩

/-- The outcome of a state. -/
def State.outcome (s : State) : Outcome :=
  ⟨s.table, if s.anyAggregate then s.groupBy else s.binned, s.aggregated⟩

/-- Run steps in order; the first failure counts. -/
def run (defaultMaxBins : Nat) (t : Table) (steps : List Step) (dimensions : List String) :
    Except Failure Outcome := do
  let last ← steps.foldlM (State.next defaultMaxBins dimensions) (State.initial t)
  return last.outcome

/-- The fields that an aggregate wrote, in the order of their names. -/
def Outcome.aggregatedNames (o : Outcome) : List String := o.aggregated.mergeSort

end Pipeline

end PlotGrammar
