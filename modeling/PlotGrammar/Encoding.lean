import PlotGrammar.Cell
import PlotGrammar.Channel
import PlotGrammar.Layout.Basic

/-! # Encodings

  An encoding binds channels to definitions and sets two controls of its own
  node, the coordinates and the layout. Only the channel map is handed down
  to the children of a node; the controls stay where they are written.

  An encoding has a slot for every channel. `channels` and `ofChannels` lead
  to the channel map and back.
-/

namespace PlotGrammar

/-! ### Definitions -/

/-- The measurement type of a field. -/
inductive FieldType where
  /-- Discrete categories. -/
  | ordinal
  /-- Continuous numbers. -/
  | quantitative
deriving DecidableEq, Repr

/-- The name of a measurement type. -/
def FieldType.name : FieldType → String
  | .ordinal => "ordinal"
  | .quantitative => "quantitative"

/-- What a channel is bound to. -/
inductive Definition where
  /-- A field of the table; a missing type is inferred. -/
  | field (name : String) (type : Option FieldType)
  /-- A constant. -/
  | literal (value : Cell)
deriving BEq

/-- The field that a definition refers to. -/
def Definition.fieldName? : Definition → Option String
  | .field name _ => some name
  | .literal _ => none

/-- The inheritable part of an encoding. -/
abbrev Channels := ChannelMap Definition

/-- The fields that the channels refer to, each once, in channel order. -/
def ChannelMap.fieldNames (m : Channels) : List String :=
  (m.toList.filterMap fun b => b.2.fieldName?).eraseDups

/-! ### Encodings -/

/-- The coordinate system of a node. -/
inductive Coordinates where
  /-- Horizontal and vertical position. -/
  | cartesian
  /-- Angle and radius. -/
  | radial
deriving DecidableEq, Repr

/-- The name of a coordinate system. -/
def Coordinates.name : Coordinates → String
  | .cartesian => "cartesian"
  | .radial => "radial"

/-- A slot for every channel, and the controls of the node. -/
structure Encoding where
  x : Option Definition := none
  y : Option Definition := none
  z : Option Definition := none
  color : Option Definition := none
  shape : Option Definition := none
  opacity : Option Definition := none
  size : Option Definition := none
  angle : Option Definition := none
  detail : Option Definition := none
  coordinates : Option Coordinates := none
  layout : Option Layout := none
deriving BEq

namespace Encoding

/-- The definition in the slot of a channel. -/
def get? (e : Encoding) : Channel → Option Definition
  | .x => e.x
  | .y => e.y
  | .z => e.z
  | .color => e.color
  | .shape => e.shape
  | .opacity => e.opacity
  | .size => e.size
  | .angle => e.angle
  | .detail => e.detail

/-- Fill the slot of a channel. -/
def insert (e : Encoding) (c : Channel) (d : Definition) : Encoding :=
  match c with
  | .x => { e with x := some d }
  | .y => { e with y := some d }
  | .z => { e with z := some d }
  | .color => { e with color := some d }
  | .shape => { e with shape := some d }
  | .opacity => { e with opacity := some d }
  | .size => { e with size := some d }
  | .angle => { e with angle := some d }
  | .detail => { e with detail := some d }

/-- The channel map of an encoding. -/
def channels (e : Encoding) : Channels := ⟨e.get?⟩

/-- The encoding with the slots of a channel map and no controls. -/
def ofChannels (m : Channels) : Encoding :=
  m.toList.foldl (fun e b => e.insert b.1 b.2) {}

/-- The field in the slot of the grouping channel. -/
def detailField? (e : Encoding) : Option String := e.detail.bind Definition.fieldName?

end Encoding

/-- The channels of a node, given those it inherits: its own come first. -/
def inherit (inherited : Channels) (own : Encoding) : Channels := inherited.merge own.channels

end PlotGrammar
