import PlotGrammar.Channel
import PlotGrammar.Layout.Basic
import PlotGrammar.NodePath

/-! # Failures

  Why a view, a table or a configuration is refused, and where. A failure of a
  view names the node that it comes from; parts that do not know their node
  report the root, and `Failure.relocate` moves the report to the node.

  A computation on doubles may also give nothing at all (`Abort`): its loop does
  not end, or a count leaves the range of its type. Then nothing that comes after
  it happens, as after a refusal, so the two are carried in the same way.
-/

namespace PlotGrammar

/-! ### Causes -/

/-- What can be wrong with the structure of a view. -/
inductive SpecFault where
  /-- The text is not a view. -/
  | unreadable
  | emptyOutput
  | emptyBinField
  /-- The bucket width is not positive and finite. -/
  | badWidth (width : Float)
  | zeroMaxBins
  | emptyAggregateField
  /-- The aggregate function needs a field. -/
  | missingField (function : String)
  | nullLiteral (channel : Channel)
  | emptyFieldName (channel : Channel)
  /-- An array of views without any. -/
  | noViews
  /-- A fault in the words of the caller. -/
  | stated (text : String)
deriving DecidableEq

/-- The wording of a fault. -/
def SpecFault.message : SpecFault → String
  | .unreadable => "the text is not a view"
  | .emptyOutput => "transform 'as' must not be empty"
  | .emptyBinField => "bin field must not be empty"
  | .badWidth width => "bin step must be a positive number, got " ++ displayNumber width
  | .zeroMaxBins => "bin maxbins must be at least 1"
  | .emptyAggregateField => "aggregate field must not be empty"
  | .missingField function => "aggregate '" ++ function ++ "' requires a field"
  | .nullLiteral channel => "channel '" ++ channel.name ++ "' binds a null literal"
  | .emptyFieldName channel => "channel '" ++ channel.name ++ "' references an empty field name"
  | .noViews => "view array must not be empty"
  | .stated text => text

/-- What can be wrong with the records of a table. -/
inductive TableFault where
  /-- The text is not an array of objects. -/
  | unreadable
  /-- A record holds an array or an object. -/
  | nestedValue (field : String)
  /-- A fault in the words of the caller. -/
  | stated (text : String)
deriving DecidableEq

/-- The wording of a fault. -/
def TableFault.message : TableFault → String
  | .unreadable => "the text is not an array of records"
  | .nestedValue field => "field '" ++ field ++ "' holds a non-primitive value"
  | .stated text => text

/-- What can be wrong with a configuration. -/
inductive ConfigFault where
  /-- The text is not a configuration. -/
  | unreadable
  | zeroMaxBins
  | zeroWrapColumns
  /-- A fault in the words of the caller. -/
  | stated (text : String)
deriving DecidableEq

/-- The wording of a fault. -/
def ConfigFault.message : ConfigFault → String
  | .unreadable => "the text is not a configuration"
  | .zeroMaxBins => "bin.maxbins must be at least 1"
  | .zeroWrapColumns => "layout.wrap_columns must be at least 1"
  | .stated text => text

/-- A limit of the evaluation. -/
inductive Limit where
  /-- On the panels of a facet. -/
  | facets
  /-- On the children of a layout. -/
  | layoutChildren
  /-- On the instances of a mark. -/
  | markInstances
deriving DecidableEq, Repr

/-- The name of a limit. -/
def Limit.name : Limit → String
  | .facets => "max_facets"
  | .layoutChildren => "max_layout_children"
  | .markInstances => "max_mark_instances"

/-- Why a computation does not give a result. -/
inductive Abort where
  /-- A loop that never ends. -/
  | endless
  /-- An integer that does not fit its type. -/
  | overflow
deriving DecidableEq, Repr

/-- The wording of a cause. -/
def Abort.message : Abort → String
  | .endless => "a loop does not end"
  | .overflow => "a count overflows"

/-! ### Failures -/

/-- A refusal, or a computation that gives no result. -/
inductive Failure where
  /-- The structure of a node is wrong. -/
  | invalidSpec (path : NodePath) (fault : SpecFault)
  /-- A field that the table of a node does not have. -/
  | unknownField (path : NodePath) (field : String)
  /-- An aggregate function that does not exist. -/
  | unknownAggregate (path : NodePath) (function : String)
  /-- The layout of a node is wrong. -/
  | invalidLayout (path : NodePath) (fault : LayoutFault)
  /-- More than a configured limit allows. -/
  | budgetExceeded (path : NodePath) (limit : Limit) (allowed actual : Nat)
  /-- Work at a node that gives neither a result nor a refusal. -/
  | aborted (path : NodePath) (cause : Abort)
  /-- A configuration that is not one, with the line; `0` if it is unknown. -/
  | badConfig (line : Nat) (fault : ConfigFault)
  /-- A configuration that does not exist. -/
  | missingConfig (name : String)
  /-- A row that does not fit the fields of its table. -/
  | rowLength (expected actual : Nat)
  /-- Records that are not a table. -/
  | badTable (fault : TableFault)
  /-- A value that cannot be written. -/
  | unwritable (text : String)
deriving DecidableEq

/-- The kinds of failures. -/
inductive FailureKind where
  | invalidSpec
  | unknownField
  | unknownAggregate
  | invalidLayout
  | budgetExceeded
  /-- Not a refusal: there is no result to begin with. -/
  | aborted
  /-- Of the configuration, the table or the output, outside of any node. -/
  | setup
deriving DecidableEq, Repr

/-- The name of a kind. -/
def FailureKind.name : FailureKind → String
  | .invalidSpec => "InvalidSpec"
  | .unknownField => "UnknownField"
  | .unknownAggregate => "UnknownAggregate"
  | .invalidLayout => "InvalidLayout"
  | .budgetExceeded => "EvaluationBudgetExceeded"
  | .aborted => "Aborted"
  | .setup => "Setup"

namespace Failure

/-- The kind of a failure. -/
def kind : Failure → FailureKind
  | .invalidSpec _ _ => .invalidSpec
  | .unknownField _ _ => .unknownField
  | .unknownAggregate _ _ => .unknownAggregate
  | .invalidLayout _ _ => .invalidLayout
  | .budgetExceeded _ _ _ _ => .budgetExceeded
  | .aborted _ _ => .aborted
  | .badConfig _ _ => .setup
  | .missingConfig _ => .setup
  | .rowLength _ _ => .setup
  | .badTable _ => .setup
  | .unwritable _ => .setup

/-- The node of a failure, if it comes from one. -/
def path? : Failure → Option NodePath
  | .invalidSpec p _ => some p
  | .unknownField p _ => some p
  | .unknownAggregate p _ => some p
  | .invalidLayout p _ => some p
  | .budgetExceeded p _ _ _ => some p
  | .aborted p _ => some p
  | _ => none

/-- Move the report to a node. A failure outside of any node stays as it is. -/
def relocate (p : NodePath) : Failure → Failure
  | .invalidSpec _ fault => .invalidSpec p fault
  | .unknownField _ field => .unknownField p field
  | .unknownAggregate _ function => .unknownAggregate p function
  | .invalidLayout _ fault => .invalidLayout p fault
  | .budgetExceeded _ limit allowed actual => .budgetExceeded p limit allowed actual
  | .aborted _ cause => .aborted p cause
  | other => other

/-- The wording of a failure. -/
def message : Failure → String
  | .invalidSpec p fault => "invalid spec at " ++ p.display ++ ": " ++ fault.message
  | .unknownField p field => "unknown field '" ++ field ++ "' at " ++ p.display
  | .unknownAggregate p function => "unknown aggregate '" ++ function ++ "' at " ++ p.display
  | .invalidLayout p fault => "invalid layout at " ++ p.display ++ ": " ++ fault.message
  | .budgetExceeded p limit allowed actual =>
    "evaluation budget exceeded at " ++ p.display ++ ": " ++ limit.name ++ " is "
      ++ toString actual ++ ", limit " ++ toString allowed
  | .aborted p cause => "no result at " ++ p.display ++ ": " ++ cause.message
  | .badConfig line fault => "configuration error at line " ++ toString line ++ ": " ++ fault.message
  | .missingConfig name => "configuration file not found: " ++ name
  | .rowLength expected actual =>
    "row has " ++ toString actual ++ " values, table has " ++ toString expected ++ " fields"
  | .badTable fault => "invalid table data: " ++ fault.message
  | .unwritable text => "serialization failed: " ++ text

end Failure

/-- Move the failure of a result to a node. -/
def locatedAt {α : Type} (p : NodePath) : Except Failure α → Except Failure α
  | .ok a => .ok a
  | .error e => .error (e.relocate p)

end PlotGrammar
