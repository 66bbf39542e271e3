import PlotGrammar.Json.Codec
import PlotGrammar.Table.Basic

/-! # Tables from records

  A JSON array of flat objects is read as a table. The fields of a record are
  taken in the order of their names, and of a repeated name the last value
  counts. The fields of the table are those of the records in order of first
  appearance, and a record that lacks one has null there.
-/

namespace PlotGrammar

/-- The members of an object, sorted by name, each name once. -/
abbrev Record := List (String × Json)

namespace Record

/-- Put a member in its place, or in place of the one of the same name. -/
def insert (name : String) (value : Json) : Record → Record
  | [] => [(name, value)]
  | (other, old) :: rest =>
    if name < other then (name, value) :: (other, old) :: rest
    else if name = other then (name, value) :: rest
    else (other, old) :: insert name value rest

/-- The record of an object. -/
def ofMembers (members : List (String × Json)) : Record :=
  members.foldl (fun record member => insert member.1 member.2 record) []

/-- The record of a JSON value. -/
def ofJson? : Json → Option Record
  | .obj members => some (ofMembers members)
  | _ => none

/-- The cell of a record under a field. -/
def cell (record : Record) (field : String) : Except Failure Cell :=
  match record.lookup field with
  | none => .ok .null
  | some value =>
    match Cell.ofJson? value with
    | some cell => .ok cell
    | none => .error (.badTable (.nestedValue field))

end Record

namespace Table

/-- The fields of records in order of first appearance. -/
def fieldsOfRecords (records : List Record) : List String :=
  (records.flatMap fun record => record.map Prod.fst).eraseDups

/-- The table of records. -/
def ofRecords (records : List Record) : Except Failure Table := do
  let fields := fieldsOfRecords records
  let rows ← records.mapM fun record => fields.mapM record.cell
  return ⟨fields, rows⟩

/-- The records of a text. -/
def records? (codec : Json.Codec) (text : String) : Option (List Record) :=
  match codec.read? text with
  | some (.arr items) => items.mapM Record.ofJson?
  | _ => none

/-- The table of a text. -/
def read (codec : Json.Codec) (text : String) : Except Failure Table :=
  match records? codec text with
  | some records => ofRecords records
  | none => .error (.badTable .unreadable)

end Table

end PlotGrammar
