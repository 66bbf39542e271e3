import PlotGrammar.Json.Basic

/-! # Values inside of values

  A location is a list of positions. It leads from a value to one of its
  children, which are the items of an array or the values of the members of an
  object, and from there on.

  `withMember` writes one more member into the object at a location and leaves
  everything else as it is. In particular it does not change how a value
  starts: how many arrays open before anything else, and whether a string
  follows them (`leading_withMember`).
-/

namespace PlotGrammar.Json

/-! ### Children -/

/-- The child of a value at a position. -/
def child? : Json → Nat → Option Json
  | .arr items, i => items[i]?
  | .obj members, i => (members[i]?).map Prod.snd
  | _, _ => none

/-- The value with another child at a position. -/
def setChild (value : Json) (i : Nat) (part : Json) : Json :=
  match value with
  | .arr items => .arr (items.set i part)
  | .obj members => .obj (members.modify i fun member => (member.1, part))
  | _ => value

/-- The value at a location. -/
def at? : Json → List Nat → Option Json
  | value, [] => some value
  | value, i :: rest => (value.child? i).bind fun part => part.at? rest

/-- The value with one more member in the object at a location; the position
    of the new member among the others is given. -/
def withMember (member : String × Json) (position : Nat) : Json → List Nat → Json
  | .obj members, [] => .obj (members.insertIdx position member)
  | value, [] => value
  | value, i :: rest =>
    match value.child? i with
    | some part => value.setChild i (part.withMember member position rest)
    | none => value

variable {value part other : Json} {i : Nat} {location : List Nat}

/-- Only arrays and objects have children. -/
theorem depth_pos_of_child? (h : value.child? i = some part) : 0 < value.depth := by
  cases value with
  | arr items => exact Nat.succ_pos _
  | obj members => exact Nat.succ_pos _
  | _ => cases h

theorem child?_setChild (h : value.child? i = some part) :
    (value.setChild i other).child? i = some other := by
  cases value with
  | arr items =>
    obtain ⟨hlt, -⟩ := List.getElem?_eq_some_iff.1 h
    exact List.getElem?_set_self hlt
  | obj members =>
    obtain ⟨member, hmember, -⟩ := Option.map_eq_some_iff.1 h
    rw [setChild, child?, List.getElem?_modify_eq, hmember]
    rfl
  | _ => cases h

/-! ### More members -/

theorem withMember_cons (h : value.child? i = some part) (member : String × Json) (position : Nat) :
    value.withMember member position (i :: location) =
      value.setChild i (part.withMember member position location) := by
  rw [withMember, h]

/-- An object is still one of the two that hold something. -/
theorem depth_pos_withMember {members : List (String × Json)}
    (h : value.at? location = some (.obj members)) (member : String × Json) (position : Nat) :
    0 < (value.withMember member position location).depth := by
  cases location with
  | nil =>
    cases h
    exact Nat.succ_pos _
  | cons i rest =>
    obtain ⟨part, hpart, -⟩ := Option.bind_eq_some_iff.1 h
    rw [withMember_cons hpart]
    exact depth_pos_of_child? (child?_setChild hpart)

/-! ### How a value starts -/

mutual

/-- How many arrays open at the start of a value, and whether a string follows
    them. -/
def leading : Json → Nat × Bool
  | .arr items => leadingOfItems items
  | .str _ => (0, true)
  | _ => (0, false)

/-- The same for an array of items. -/
def leadingOfItems : List Json → Nat × Bool
  | [] => (1, false)
  | item :: _ => (item.leading.1 + 1, item.leading.2)

end

theorem leading_obj (members : List (String × Json)) : (Json.obj members).leading = (0, false) := rfl

/-- The start of an array is that of its first item. -/
theorem leading_arr_set {items : List Json} (hpart : (Json.arr items).child? i = some part)
    (h : other.leading = part.leading) :
    (Json.arr (items.set i other)).leading = (Json.arr items).leading := by
  cases items with
  | nil => rfl
  | cons item items =>
    cases i with
    | zero =>
      cases hpart
      rw [List.set_cons_zero, leading, leading, leadingOfItems, leadingOfItems, h]
    | succ i => rfl

/-- One more member somewhere inside does not change how a value starts. -/
theorem leading_withMember (member : String × Json) (position : Nat) (value : Json)
    (location : List Nat) : (value.withMember member position location).leading = value.leading := by
  induction location generalizing value with
  | nil =>
    cases value with
    | obj members => rfl
    | _ => rfl
  | cons i rest ih =>
    cases hpart : value.child? i with
    | none => rw [withMember, hpart]
    | some part =>
      rw [withMember_cons hpart]
      cases value with
      | arr items => exact leading_arr_set hpart (ih part)
      | obj members => rfl
      | _ => cases hpart

end PlotGrammar.Json
