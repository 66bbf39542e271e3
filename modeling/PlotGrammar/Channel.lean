/-! # Channels

  The nine visual channels and maps from channels to anything. A map is given
  by what it binds to each channel; `toList` lists the bound channels in
  channel order.
-/

namespace PlotGrammar

/-- A visual channel. -/
inductive Channel where
  /-- Horizontal position. -/
  | x
  /-- Vertical position. -/
  | y
  /-- Depth. -/
  | z
  /-- Mark color or group background. -/
  | color
  /-- Mark shape. -/
  | shape
  | opacity
  /-- Mark or group size. -/
  | size
  /-- Rotation. -/
  | angle
  /-- Grouping only; never drawn. -/
  | detail
deriving DecidableEq, Repr

namespace Channel

/-- Every channel, in channel order. -/
def all : List Channel := [.x, .y, .z, .color, .shape, .opacity, .size, .angle, .detail]

/-- Whether the channel is drawn. -/
def isVisual (c : Channel) : Bool := c != .detail

/-- The name of a channel. -/
def name : Channel → String
  | .x => "x"
  | .y => "y"
  | .z => "z"
  | .color => "color"
  | .shape => "shape"
  | .opacity => "opacity"
  | .size => "size"
  | .angle => "angle"
  | .detail => "detail"

theorem mem_all (c : Channel) : c ∈ all := by cases c <;> decide

end Channel

/-! ### Maps -/

/-- A map that binds some channels. -/
@[ext]
structure ChannelMap (α : Type) where
  /-- What a channel is bound to. -/
  get? : Channel → Option α

namespace ChannelMap

variable {α β ε : Type}

/-- No channel is bound. -/
def empty : ChannelMap α := ⟨fun _ => none⟩

/-- Bind one channel. -/
def insert (m : ChannelMap α) (c : Channel) (a : α) : ChannelMap α :=
  ⟨fun d => if d = c then some a else m.get? d⟩

/-- The bound channels in channel order. -/
def toList (m : ChannelMap α) : List (Channel × α) :=
  Channel.all.filterMap fun c => (m.get? c).map fun a => (c, a)

/-- The map of a list of bindings; the first binding of a channel counts. -/
def ofList (bindings : List (Channel × α)) : ChannelMap α := ⟨fun c => bindings.lookup c⟩

/-- The bindings of `overrides`, and of `base` elsewhere. -/
def merge (base overrides : ChannelMap α) : ChannelMap α :=
  ⟨fun c => (overrides.get? c).or (base.get? c)⟩

/-- The number of bound channels. -/
def size (m : ChannelMap α) : Nat := m.toList.length

/-- Whether no channel is bound. -/
def isEmpty (m : ChannelMap α) : Bool := m.toList.isEmpty

/-- The same channels with other values. -/
def map (f : α → β) (m : ChannelMap α) : ChannelMap β := ⟨fun c => (m.get? c).map f⟩

/-- Only the channels that pass a test. -/
def filter (p : Channel → Bool) (m : ChannelMap α) : ChannelMap α :=
  ⟨fun c => if p c then m.get? c else none⟩

/-- Apply a function that may fail in channel order; the first failure counts. -/
def mapM (f : α → Except ε β) (m : ChannelMap α) : Except ε (ChannelMap β) := do
  let bindings ← m.toList.mapM fun (c, a) => do return (c, ← f a)
  return ofList bindings

instance [BEq α] : BEq (ChannelMap α) := ⟨fun m n => Channel.all.all fun c => m.get? c == n.get? c⟩

@[simp] theorem get?_empty (c : Channel) : (empty : ChannelMap α).get? c = none := rfl

@[simp] theorem get?_merge (m n : ChannelMap α) (c : Channel) :
    (m.merge n).get? c = (n.get? c).or (m.get? c) := rfl

theorem mem_toList {m : ChannelMap α} {c : Channel} {a : α} :
    (c, a) ∈ m.toList ↔ m.get? c = some a := by
  simp only [toList, List.mem_filterMap, Option.map_eq_some_iff, Prod.mk.injEq]
  constructor
  · rintro ⟨d, -, b, h, rfl, rfl⟩
    exact h
  · intro h
    exact ⟨c, Channel.mem_all c, a, h, rfl, rfl⟩

end ChannelMap

end PlotGrammar
