import PlotGrammar.Encoding
import PlotGrammar.Table.Basic

/-! # Resolving encodings

  Resolving binds every channel of a node to a constant or to a field of its
  table with a known type. A missing type is inferred from the column.

  `resolve` does this for one node. A `Resolver` does it for several in turn
  and remembers the types that it has inferred, also when a call fails.
-/

namespace PlotGrammar

/-- A channel after resolution. -/
inductive Binding where
  /-- The same constant for every instance. -/
  | constant (value : Cell)
  /-- A field of a known type. -/
  | field (name : String) (type : FieldType)
deriving BEq

/-- The definition that says the same as a binding. -/
def Binding.definition : Binding → Definition
  | .constant value => .literal value
  | .field name type => .field name (some type)

/-- An encoding whose channels are all resolved. -/
structure ResolvedEncoding where
  /-- The bindings, the grouping channel among them. -/
  channels : ChannelMap Binding
  /-- The coordinate system of the node. -/
  coordinates : Coordinates
  /-- The layout directive of the node as written. -/
  layout : Option Layout
deriving BEq

namespace ResolvedEncoding

/-- The field that the grouping channel is bound to. -/
def detailField? (e : ResolvedEncoding) : Option String :=
  match e.channels.get? .detail with
  | some (.field name _) => some name
  | _ => none

/-- The encoding that says the same, with every type given. -/
def toEncoding (e : ResolvedEncoding) : Encoding :=
  { Encoding.ofChannels (e.channels.map Binding.definition) with
    coordinates := some e.coordinates
    layout := e.layout }

end ResolvedEncoding

/-! ### Types of columns -/

/-- The type of a column: quantitative if it holds a number and nothing but
    numbers and nulls. -/
def typeOfCells (cells : List Cell) : FieldType :=
  if cells.any (fun c => c.float?.isSome) && cells.all (fun c => c.float?.isSome || c.isNull) then
    .quantitative
  else .ordinal

/-- The type of a field; ordinal if the table does not have it. -/
def Table.inferType (t : Table) (field : String) : FieldType :=
  match t.column? field with
  | some cells => typeOfCells cells
  | none => .ordinal

/-! ### Resolving once -/

/-- Resolve a definition. -/
def Definition.resolve (t : Table) : Definition → Except Failure Binding
  | .literal value => .ok (.constant value)
  | .field name type =>
    if t.hasField name then .ok (.field name (type.getD (t.inferType name)))
    else .error (.unknownField .root name)

/-- Resolve the channels that a node inherits and its own; the first channel
    that refers to a missing field fails. -/
def resolve (t : Table) (inherited : Channels) (own : Encoding) : Except Failure ResolvedEncoding := do
  let channels ← (inherit inherited own).mapM (Definition.resolve t)
  return ⟨channels, own.coordinates.getD .cartesian, own.layout⟩

/-! ### Resolving with memory -/

/-- A table and the types that have been inferred for its fields. -/
structure Resolver where
  table : Table
  inferred : List (String × FieldType) := []

namespace Resolver

/-- The number of types that have been inferred. -/
def cached (r : Resolver) : Nat := r.inferred.length

/-- The type of a field, remembered or inferred. -/
def typeOf (r : Resolver) (field : String) : FieldType × Resolver :=
  match r.inferred.lookup field with
  | some type => (type, r)
  | none =>
    let type := r.table.inferType field
    (type, { r with inferred := r.inferred ++ [(field, type)] })

/-- Resolve a definition. -/
def resolveDefinition (r : Resolver) : Definition → Except Failure Binding × Resolver
  | .literal value => (.ok (.constant value), r)
  | .field name type =>
    if r.table.hasField name then
      match type with
      | some type => (.ok (.field name type), r)
      | none =>
        let (type, r) := r.typeOf name
        (.ok (.field name type), r)
    else (.error (.unknownField .root name), r)

/-- Resolve channels one after the other, up to the first that fails. -/
def resolveChannels (r : Resolver) :
    List (Channel × Definition) → Except Failure (List (Channel × Binding)) × Resolver
  | [] => (.ok [], r)
  | (channel, definition) :: rest =>
    match r.resolveDefinition definition with
    | (.error e, r) => (.error e, r)
    | (.ok binding, r) =>
      match r.resolveChannels rest with
      | (.error e, r) => (.error e, r)
      | (.ok bindings, r) => (.ok ((channel, binding) :: bindings), r)

/-- Resolve the channels that a node inherits and its own. -/
def resolve (r : Resolver) (inherited : Channels) (own : Encoding) :
    Except Failure ResolvedEncoding × Resolver :=
  match r.resolveChannels (inherit inherited own).toList with
  | (.error e, r) => (.error e, r)
  | (.ok bindings, r) =>
    (.ok ⟨.ofList bindings, own.coordinates.getD .cartesian, own.layout⟩, r)

end Resolver

end PlotGrammar
