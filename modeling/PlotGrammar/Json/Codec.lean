import PlotGrammar.Json.Basic

/-! # Texts of JSON values

  Views, tables and scenes are written and read through a codec, a writer and
  a reader of the texts of JSON values. Which codec this is does not matter to
  the library: what is relied upon is that it is faithful to what it writes
  (`Codec.IsFaithful`) and that it accepts no more than a document may hold
  (`Codec.IsBounded`).
-/

namespace PlotGrammar.Json

/-- A writer and a reader of texts. The reader gives nothing for a text that it
    refuses. -/
structure Codec where
  write : Json → String
  read? : String → Option Json

/-- The fewest arrays and objects inside each other that a reader refuses. -/
def nestingLimit : Nat := 128

/-! ### Values that have a text -/

/-- An integer of 64 bits, or a finite double. -/
def Number.IsWritable : Number → Prop
  | .natural n => n < Nat.pow 2 64
  | .negative n => 0 < n ∧ n ≤ Nat.pow 2 63
  | .real x => x.isFinite = true

/-- All numbers of the value can be written. -/
inductive IsWritable : Json → Prop
  | null : IsWritable .null
  | bool (value : Bool) : IsWritable (.bool value)
  | num {n : Number} (h : n.IsWritable) : IsWritable (.num n)
  | str (value : String) : IsWritable (.str value)
  | arr {items : List Json} (h : ∀ item ∈ items, IsWritable item) : IsWritable (.arr items)
  | obj {members : List (String × Json)} (h : ∀ m ∈ members, IsWritable m.2) :
    IsWritable (.obj members)

mutual

/-- What the text of a value shows: there is none for NaN and the infinities,
    and null stands in their place. -/
def shown : Json → Json
  | .num (.real x) => if x.isFinite then .num (.real x) else .null
  | .arr items => .arr (shownItems items)
  | .obj members => .obj (shownMembers members)
  | value => value

/-- What the texts of some items show. -/
def shownItems : List Json → List Json
  | [] => []
  | item :: rest => item.shown :: shownItems rest

/-- What the texts of some members show. -/
def shownMembers : List (String × Json) → List (String × Json)
  | [] => []
  | (key, value) :: rest => (key, value.shown) :: shownMembers rest

end

/-! ### What a codec has to do -/

/-- A text that was written is read as the value that it shows, as long as the
    value does not nest too deeply. -/
structure Codec.IsFaithful (codec : Codec) : Prop where
  /-- A double that is not finite is written as null. -/
  write_shown : ∀ value : Json, codec.write value.shown = codec.write value
  /-- Strings, booleans, integers of 64 bits and finite doubles are read back. -/
  read?_write : ∀ value : Json, value.IsWritable → value.depth < nestingLimit →
    codec.read? (codec.write value) = some value
  /-- A value that nests too deeply is refused. -/
  read?_write_deep : ∀ value : Json, value.IsWritable → nestingLimit ≤ value.depth →
    codec.read? (codec.write value) = none

/-- Whatever is read nests less deeply than the limit, and its numbers are
    integers of 64 bits and finite doubles. -/
structure Codec.IsBounded (codec : Codec) : Prop where
  depth_lt : ∀ text value, codec.read? text = some value → value.depth < nestingLimit
  isWritable : ∀ text value, codec.read? text = some value → value.IsWritable

end PlotGrammar.Json
