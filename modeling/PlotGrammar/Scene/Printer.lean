import PlotGrammar.Scene.Basic
import PlotGrammar.View.Printer

/-! # Writing scenes

  The JSON value of a scene, as a renderer reads it. Of optional parts only
  those that are there are written.
-/

namespace PlotGrammar

/-- The value of a path: its positions. -/
def NodePath.toJson (p : NodePath) : Json := .arr (p.indices.map Json.ofNat)

/-- The value of a channel map: an object with a member for each bound channel. -/
def ChannelMap.toJson {α : Type} (toJson : α → Json) (m : ChannelMap α) : Json :=
  .obj (m.toList.map fun b => (b.1.name, toJson b.2))

/-- The value of a binding. -/
def Binding.toJson : Binding → Json
  | .constant value => .obj [("kind", .str "constant"), ("value", value.toJson)]
  | .field name type =>
    .obj [("kind", .str "field"), ("field", .str name), ("type", type.toJson)]

/-- The value of a resolved encoding. -/
def ResolvedEncoding.toJson (e : ResolvedEncoding) : Json :=
  .obj ([("channels", e.channels.toJson Binding.toJson), ("coordinates", e.coordinates.toJson)]
    ++ optionalMember "layout" Layout.toJson e.layout)

/-- The value of a table. -/
def Table.toJson (t : Table) : Json :=
  .obj [("fields", .arr (t.fields.map Json.str)),
    ("rows", .arr (t.rows.map fun row => .arr (row.map Cell.toJson)))]

/-- The value of a bound value. -/
def BoundValue.toJson : BoundValue → Json
  | .constant value => .obj [("kind", .str "constant"), ("value", value.toJson)]
  | .field name type value aggregated =>
    .obj [("kind", .str "field"), ("field", .str name), ("type", type.toJson),
      ("value", value.toJson), ("aggregated", .bool aggregated)]

/-- The value of an instance. -/
def MarkInstance.toJson (i : MarkInstance) : Json :=
  .obj [("row", Json.ofNat i.row), ("channels", i.channels.toJson BoundValue.toJson)]

/-- The value of a field with a cell. -/
def fieldCellJson (b : String × Cell) : Json := .arr [.str b.1, b.2.toJson]

/-- The value of a group of instances. -/
def MarkGroup.toJson (g : MarkGroup) : Json :=
  .obj [("key", .arr (g.key.map fieldCellJson)), ("rows", .arr (g.rows.map Json.ofNat)),
    ("instances", .arr (g.instances.map MarkInstance.toJson))]

/-- The value of a leaf. -/
def MarkLeaf.toJson (leaf : MarkLeaf) : Json :=
  .obj [("node", .str "marks"), ("path", leaf.path.toJson), ("mark", .str leaf.mark.name),
    ("encoding", leaf.encoding.toJson), ("table", leaf.table.toJson),
    ("groups", .arr (leaf.groups.map MarkGroup.toJson))]

/-- The value of a composition. -/
def Composition.toJson : Composition → Json
  | .layer => .obj [("type", .str "layer")]
  | .horizontal => .obj [("type", .str "horizontal")]
  | .vertical => .obj [("type", .str "vertical")]
  | .wrap columns => .obj [("type", .str "wrap"), ("columns", Json.ofNat columns)]

/-- The value of an arrangement. -/
def Arrangement.toJson (a : Arrangement) : Json :=
  .obj [("layout", a.composition.toJson), ("rows", Json.ofNat a.rows),
    ("columns", Json.ofNat a.columns)]

/-- The value of a placement. -/
def Placement.toJson (p : Placement) : Json :=
  .obj [("index", Json.ofNat p.index), ("row", Json.ofNat p.row),
    ("column", Json.ofNat p.column), ("layer", Json.ofNat p.layer)]

namespace SceneNode

mutual

/-- The value of a node. -/
def toJson : SceneNode → Json
  | .marks leaf => leaf.toJson
  | .group head children =>
    .obj [("node", .str "group"), ("path", head.path.toJson), ("encoding", head.encoding.toJson),
      ("arrangement", head.arrangement.toJson), ("children", .arr (toJsons children))]

/-- The values of a list of children. -/
def toJsons : List (Placed SceneNode) → List Json
  | [] => []
  | ⟨placement, facet, node⟩ :: rest =>
    .obj (("placement", placement.toJson) :: optionalMember "facet" fieldCellJson facet
      ++ [("node", node.toJson)]) :: toJsons rest

end

end SceneNode

/-- The value of a scene. -/
def Scene.toJson (scene : Scene) : Json := .obj [("root", scene.root.toJson)]

/-- The text of a scene. -/
def Scene.write (codec : Json.Codec) (scene : Scene) : String := codec.write scene.toJson

end PlotGrammar
