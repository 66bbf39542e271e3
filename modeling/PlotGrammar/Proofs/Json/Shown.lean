import PlotGrammar.Json.Codec

/-! # What texts show of values

  The text of a value shows null in place of a number that is not finite. The
  value that it shows nests as deep (`depth_shown`).
-/

namespace PlotGrammar.Json

@[simp] theorem shown_str (s : String) : (Json.str s).shown = .str s := rfl

theorem shownItems_eq_map (items : List Json) : shownItems items = items.map shown := by
  induction items with
  | nil => rfl
  | cons item items ih => rw [shownItems, ih, List.map_cons]

theorem shownMembers_eq_map (members : List (String × Json)) :
    shownMembers members = members.map fun m => (m.1, m.2.shown) := by
  induction members with
  | nil => rfl
  | cons m members ih => rw [shownMembers, ih, List.map_cons]

/-- A finite number is shown, and others are not. -/
theorem shown_ofFloat (x : Float) :
    (ofFloat x).shown = if x.isFinite then ofFloat x else .null := by
  rw [ofFloat, shown]

mutual

theorem depth_shown : ∀ value : Json, value.shown.depth = value.depth
  | .null => rfl
  | .bool _ => rfl
  | .num (.natural _) => rfl
  | .num (.negative _) => rfl
  | .num (.real x) => by
    rw [shown]
    split
    · rfl
    · rfl
  | .str _ => rfl
  | .arr items => congrArg Nat.succ (depthOfItems_shown items)
  | .obj members => congrArg Nat.succ (depthOfMembers_shown members)

theorem depthOfItems_shown : ∀ items : List Json,
    depthOfItems (shownItems items) = depthOfItems items
  | [] => rfl
  | item :: rest => by
    rw [shownItems, depthOfItems, depthOfItems, depth_shown item, depthOfItems_shown rest]

theorem depthOfMembers_shown : ∀ members : List (String × Json),
    depthOfMembers (shownMembers members) = depthOfMembers members
  | [] => rfl
  | (key, value) :: rest => by
    rw [shownMembers, depthOfMembers, depthOfMembers, depth_shown value, depthOfMembers_shown rest]

end

end PlotGrammar.Json
