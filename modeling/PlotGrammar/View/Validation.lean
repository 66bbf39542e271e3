import PlotGrammar.Aggregate
import PlotGrammar.View.Basic

/-! # Validation of views

  The rules of structure that the type of views does not hold. Nodes are
  checked before their children and children in order, so the first fault in
  that order is reported, at its node. The names of aggregate functions are
  left to the evaluation.
-/

namespace PlotGrammar

/-- The fault of a bin step, if there is one. -/
def BinStep.fault? (step : BinStep) : Option SpecFault :=
  if step.out.isEmpty then some .emptyOutput
  else if step.field.isEmpty then some .emptyBinField
  else match step.width.filter fun w => !w.isFinite || w <= 0.0 with
    | some width => some (.badWidth width)
    | none => if step.maxBins = some 0 then some .zeroMaxBins else none

/-- The fault of an aggregate step, if there is one. -/
def AggregateStep.fault? (step : AggregateStep) : Option SpecFault :=
  if step.out.isEmpty then some .emptyOutput
  else match step.field with
    | some field => if field.isEmpty then some .emptyAggregateField else none
    | none =>
      match AggregateFunction.ofName? step.function with
      | some f => if f.requiresField then some (.missingField step.function) else none
      | none => none

/-- The fault of a step, if there is one. -/
def Step.fault? : Step → Option SpecFault
  | .bin step => step.fault?
  | .aggregate step => step.fault?

/-- The fault of a channel that is bound to a definition, if there is one. -/
def Definition.fault? (c : Channel) : Definition → Option SpecFault
  | .literal .null => some (.nullLiteral c)
  | .literal _ => none
  | .field name _ => if name.isEmpty then some (.emptyFieldName c) else none

/-- The first fault of a node itself: of its steps, then of its channels. -/
def ViewHead.fault? (head : ViewHead) : Option SpecFault :=
  (head.steps.findSome? Step.fault?).or
    (head.encoding.channels.toList.findSome? fun b => b.2.fault? b.1)

/-- Check a node itself. -/
def ViewHead.checkAt (path : NodePath) (head : ViewHead) : Except Failure Unit :=
  match head.fault? with
  | some fault => .error (.invalidSpec path fault)
  | none => .ok ()

namespace View

mutual

/-- Check a view that stands at a path. -/
def checkAt (path : NodePath) : View → Except Failure Unit
  | .mark head _ => head.checkAt path
  | .nested head child => do
    head.checkAt path
    child.checkAt (path.child 0)
  | .concat head children => do
    head.checkAt path
    if children.isEmpty then throw (.invalidSpec path .noViews)
    checkAllAt path 0 children

/-- Check views that stand below a path, from a position on. -/
def checkAllAt (path : NodePath) (index : Nat) : List View → Except Failure Unit
  | [] => .ok ()
  | v :: rest => do
    v.checkAt (path.child index)
    checkAllAt path (index + 1) rest

end

/-- Check the structure of a view. -/
def validate (v : View) : Except Failure Unit := v.checkAt .root

end View

end PlotGrammar
