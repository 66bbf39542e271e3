import PlotGrammar.Json.Codec
import PlotGrammar.View.Validation

/-! # Reading views

  The JSON form of a view is strict: an unknown or a repeated key is refused.
  Everything with named parts may be written as an object or as an array of
  its parts in their order, and a name may be written as an object with the
  name as its only key and null under it. Optional parts may be null.

  Where a value may be one of several things, each has a reader of its own and
  the first that accepts it counts: a body is a mark, a single view or an
  array of views; a step is a bin or an aggregate; a definition is a field or
  a constant; a layout is a name or an object.
-/

namespace PlotGrammar

/-! ### Parts -/

/-- Whether no name stands twice in a list. -/
def allDifferent : List String → Bool
  | [] => true
  | name :: rest => !rest.contains name && allDifferent rest

/-- The values of named parts: of the members of an object, or of the items of
    an array in the order of the names. -/
def parts? (names : List String) : Json → Option (List (Option Json))
  | .obj members =>
    let keys := members.map Prod.fst
    if keys.all names.contains && allDifferent keys then
      some (names.map fun name => members.lookup name)
    else none
  | .arr items =>
    if items.length ≤ names.length then
      some (items.map some ++ List.replicate (names.length - items.length) none)
    else none
  | _ => none

/-- A part that may be missing or null. -/
def optionalPart? {α : Type} (read : Json → Option α) : Option Json → Option (Option α)
  | none => some none
  | some .null => some none
  | some value => (read value).map some

/-- A name, or an object with the name as its only key and null under it. -/
def name? : Json → Option String
  | .str name => some name
  | .obj [(name, .null)] => some name
  | _ => none

/-- A count of 64 bits. -/
def count? (value : Json) : Option UInt64 :=
  value.nat?.bind fun n => if n < Nat.pow 2 64 then some (UInt64.ofNat n) else none

/-! ### Layouts and encodings -/

/-- The kind of layout of a name. -/
def LayoutKind.ofName? : String → Option LayoutKind
  | "layer" => some .layer
  | "horizontal" => some .horizontal
  | "vertical" => some .vertical
  | "wrap" => some .wrap
  | _ => none

/-- A layout that is written as a name. -/
def Layout.ofNameJson? (value : Json) : Option Layout := do
  let kind ← LayoutKind.ofName? (← name? value)
  return ⟨kind, none⟩

/-- A layout that is written with its parts. -/
def Layout.ofPartsJson? (value : Json) : Option Layout := do
  match ← parts? ["type", "columns"] value with
  | [some kind, columns] =>
    return ⟨← LayoutKind.ofName? (← name? kind), ← optionalPart? Json.float? columns⟩
  | _ => none

/-- A layout directive. -/
def Layout.ofJson? (value : Json) : Option Layout :=
  (Layout.ofNameJson? value).or (Layout.ofPartsJson? value)

/-- A measurement type. -/
def FieldType.ofJson? (value : Json) : Option FieldType := do
  match ← name? value with
  | "ordinal" => return .ordinal
  | "quantitative" => return .quantitative
  | _ => none

/-- A coordinate system. -/
def Coordinates.ofJson? (value : Json) : Option Coordinates := do
  match ← name? value with
  | "cartesian" => return .cartesian
  | "radial" => return .radial
  | _ => none

/-- A definition that refers to a field. -/
def Definition.ofFieldJson? (value : Json) : Option Definition := do
  match ← parts? ["field", "type"] value with
  | [some name, type] => return .field (← name.str?) (← optionalPart? FieldType.ofJson? type)
  | _ => none

/-- A definition that is a constant. -/
def Definition.ofLiteralJson? (value : Json) : Option Definition :=
  (Cell.ofJson? value).map .literal

/-- A definition. -/
def Definition.ofJson? (value : Json) : Option Definition :=
  (Definition.ofFieldJson? value).or (Definition.ofLiteralJson? value)

/-- The names of the parts of an encoding. -/
def Encoding.partNames : List String := Channel.all.map Channel.name ++ ["coordinates", "layout"]

/-- An encoding. -/
def Encoding.ofJson? (value : Json) : Option Encoding := do
  match ← parts? Encoding.partNames value with
  | [x, y, z, color, shape, opacity, size, angle, detail, coordinates, layout] =>
    return {
      x := ← optionalPart? Definition.ofJson? x
      y := ← optionalPart? Definition.ofJson? y
      z := ← optionalPart? Definition.ofJson? z
      color := ← optionalPart? Definition.ofJson? color
      shape := ← optionalPart? Definition.ofJson? shape
      opacity := ← optionalPart? Definition.ofJson? opacity
      size := ← optionalPart? Definition.ofJson? size
      angle := ← optionalPart? Definition.ofJson? angle
      detail := ← optionalPart? Definition.ofJson? detail
      coordinates := ← optionalPart? Coordinates.ofJson? coordinates
      layout := ← optionalPart? Layout.ofJson? layout }
  | _ => none

/-! ### Steps -/

/-- A bin step. -/
def BinStep.ofJson? (value : Json) : Option BinStep := do
  match ← parts? ["bin", "as", "step", "maxbins"] value with
  | [some field, some out, width, maxBins] =>
    return ⟨← field.str?, ← out.str?, ← optionalPart? Json.float? width,
      ← optionalPart? count? maxBins⟩
  | _ => none

/-- An aggregate step. -/
def AggregateStep.ofJson? (value : Json) : Option AggregateStep := do
  match ← parts? ["aggregate", "field", "as"] value with
  | [some function, field, some out] =>
    return ⟨← function.str?, ← optionalPart? Json.str? field, ← out.str?⟩
  | _ => none

/-- A step. -/
def Step.ofJson? (value : Json) : Option Step :=
  ((BinStep.ofJson? value).map Step.bin).or ((AggregateStep.ofJson? value).map Step.aggregate)

/-- The steps of a node; none if they are missing. -/
def steps? : Option Json → Option (List Step)
  | none => some []
  | some (.arr items) => items.mapM Step.ofJson?
  | some _ => none

/-! ### Views -/

/-- A mark as the body of a node. -/
def MarkKind.ofJson? (value : Json) : Option MarkKind := do MarkKind.ofName? (← name? value)

namespace View

/-- The names of the parts of a view. -/
def partNames : List String := ["transform", "view", "encoding"]

/-- The head of a node and the value of its body. -/
def headAndBody? (value : Json) : Option (ViewHead × Json) := do
  match ← parts? partNames value with
  | [steps, some body, some encoding] =>
    return (⟨← steps? steps, ← Encoding.ofJson? encoding⟩, body)
  | _ => none

/-- The view with a head and a body, given a reader of its children: a mark, a
    single view or an array of views. -/
def ofBody? (child? : Json → Option View) (head : ViewHead) (body : Json) : Option View :=
  ((MarkKind.ofJson? body).map (View.mark head)).or
    (((child? body).map (View.nested head)).or
      (match body with
        | .arr items => (items.mapM child?).map (View.concat head)
        | _ => none))

/-- A view, nested at most so many levels deep. -/
def ofJson? : Nat → Json → Option View
  | 0, _ => none
  | levels + 1, value => do
    let (head, body) ← headAndBody? value
    ofBody? (ofJson? levels) head body

/-- The view of a JSON value. -/
def fromJson? (value : Json) : Option View := ofJson? (value.depth + 1) value

/-- Read and check the view of a text. -/
def read (codec : Json.Codec) (text : String) : Except Failure View :=
  match (codec.read? text).bind fromJson? with
  | none => .error (.invalidSpec .root .unreadable)
  | some v => do
    v.validate
    return v

end View

end PlotGrammar
