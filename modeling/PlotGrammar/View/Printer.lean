import PlotGrammar.Json.Codec
import PlotGrammar.View.Basic

/-! # Writing views

  The JSON value of a view, in which what is missing is left out, and its text
  by a given codec.
-/

namespace PlotGrammar

/-- A member for a value that may be missing. -/
def optionalMember {α : Type} (key : String) (toJson : α → Json) :
    Option α → List (String × Json)
  | some a => [(key, toJson a)]
  | none => []

/-- The value of a count of 64 bits. -/
def countJson (n : UInt64) : Json := Json.ofNat n.toNat

/-- The value of a measurement type. -/
def FieldType.toJson (t : FieldType) : Json := .str t.name

/-- The value of a definition. -/
def Definition.toJson : Definition → Json
  | .field name type => .obj (("field", .str name) :: optionalMember "type" FieldType.toJson type)
  | .literal value => value.toJson

/-- The value of a coordinate system. -/
def Coordinates.toJson (c : Coordinates) : Json := .str c.name

/-- The value of a layout directive: its name, or an object for a grid and for
    one with a column count. -/
def Layout.toJson (layout : Layout) : Json :=
  if layout.kind = .wrap || layout.columns.isSome then
    .obj (("type", .str layout.kind.name) :: optionalMember "columns" Json.ofFloat layout.columns)
  else .str layout.kind.name

/-- The value of an encoding. -/
def Encoding.toJson (e : Encoding) : Json :=
  .obj (Channel.all.flatMap (fun c => optionalMember c.name Definition.toJson (e.get? c))
    ++ optionalMember "coordinates" Coordinates.toJson e.coordinates
    ++ optionalMember "layout" Layout.toJson e.layout)

/-- The value of a bin step. -/
def BinStep.toJson (step : BinStep) : Json :=
  .obj ([("bin", .str step.field), ("as", .str step.out)]
    ++ optionalMember "step" Json.ofFloat step.width
    ++ optionalMember "maxbins" countJson step.maxBins)

/-- The value of an aggregate step. -/
def AggregateStep.toJson (step : AggregateStep) : Json :=
  .obj (("aggregate", .str step.function) :: optionalMember "field" Json.str step.field
    ++ [("as", .str step.out)])

/-- The value of a step. -/
def Step.toJson : Step → Json
  | .bin step => step.toJson
  | .aggregate step => step.toJson

/-- The value of a node with a given head and body. -/
def ViewHead.toJson (head : ViewHead) (body : Json) : Json :=
  .obj ((if head.steps.isEmpty then [] else [("transform", .arr (head.steps.map Step.toJson))])
    ++ [("view", body), ("encoding", head.encoding.toJson)])

namespace View

mutual

/-- The value of a view. -/
def toJson : View → Json
  | .mark head kind => head.toJson (.str kind.name)
  | .nested head child => head.toJson child.toJson
  | .concat head children => head.toJson (.arr (toJsons children))

/-- The values of a list of views. -/
def toJsons : List View → List Json
  | [] => []
  | v :: rest => v.toJson :: toJsons rest

end

/-- The text of a view. -/
def write (codec : Json.Codec) (v : View) : String := codec.write v.toJson

end View

end PlotGrammar
