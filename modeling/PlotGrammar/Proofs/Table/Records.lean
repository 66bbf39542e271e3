import PlotGrammar.Proofs.Json.RoundTrip
import PlotGrammar.Proofs.Results
import PlotGrammar.Proofs.Table.Fields
import PlotGrammar.Table.Records

/-! # Tables hold their records

  A table is read from objects in two passes: the first collects the fields,
  and the second looks up every field in every object. Nothing is lost on the
  way (`Table.IsOf`):

  - an object is kept as a sorted record, with the last value of a repeated key
    (`Record.sorted_ofMembers`, `Record.lookup_ofMembers`),
  - the fields are the keys of the objects, each once. A field comes before
    those that first appear in a later object, and before the greater ones of
    the object in which it first appears itself (`AppearsBefore`),
  - an object has its own cells in its row, and null under the other fields.

  `Table.isOf_of_read` says this of every text that is read, and which texts
  are not.
-/

namespace PlotGrammar

/-! ### One object -/

namespace Record

/-- The value of a key in an object: of a repeated key the last one. -/
def last? (members : List (String × Json)) (key : String) : Option Json :=
  members.reverse.lookup key

/-- The keys ascend. -/
def Sorted (record : Record) : Prop := record.Pairwise fun member later => member.1 < later.1

section

variable {record : Record} {name key : String} {value : Json}

/-- Putting a member in its place changes the value of its own key only. -/
theorem lookup_insert :
    (insert name value record).lookup key =
      if (key == name) = true then some value else record.lookup key := by
  induction record with
  | nil => rw [insert, lookup_cons_eq_ite]
  | cons member rest ih =>
    obtain ⟨other, old⟩ := member
    unfold insert
    by_cases hlt : name < other
    · rw [if_pos hlt, lookup_cons_eq_ite]
    · rw [if_neg hlt]
      by_cases heq : name = other
      · rw [if_pos heq, lookup_cons_eq_ite, lookup_cons_eq_ite, heq]
        by_cases hkey : (key == other) = true
        · rw [if_pos hkey, if_pos hkey]
        · rw [if_neg hkey, if_neg hkey, if_neg hkey]
      · rw [if_neg heq, lookup_cons_eq_ite, lookup_cons_eq_ite, ih]
        by_cases hkey : (key == name) = true
        · -- The other member was passed over, so it has another key.
          have hother : ¬ (key == other) = true := by
            rw [eq_of_beq hkey]
            simpa using heq
          rw [if_neg hother, if_pos hkey, if_pos hkey]
        · rw [if_neg hkey, if_neg hkey]

theorem mem_keys_insert :
    key ∈ (insert name value record).map Prod.fst ↔ key = name ∨ key ∈ record.map Prod.fst := by
  induction record with
  | nil => simp [insert]
  | cons member rest ih =>
    obtain ⟨other, old⟩ := member
    unfold insert
    by_cases hlt : name < other
    · simp [hlt]
    · by_cases heq : name = other
      · simp [heq]
      · rw [if_neg hlt, if_neg heq, List.map_cons, List.mem_cons, ih, List.map_cons, List.mem_cons]
        exact or_left_comm

theorem sorted_insert (h : record.Sorted) : (insert name value record).Sorted := by
  induction record with
  | nil => exact List.pairwise_singleton _ _
  | cons member rest ih =>
    obtain ⟨other, old⟩ := member
    obtain ⟨hother, hrest⟩ := List.pairwise_cons.1 h
    unfold insert
    by_cases hlt : name < other
    · rw [if_pos hlt]
      refine List.pairwise_cons.2 ⟨?_, h⟩
      intro later hlater
      rcases List.mem_cons.1 hlater with heq | hlater
      · rw [heq]
        exact hlt
      · exact String.lt_trans hlt (hother later hlater)
    · rw [if_neg hlt]
      by_cases heq : name = other
      · rw [if_pos heq, heq]
        exact List.pairwise_cons.2 ⟨hother, hrest⟩
      · rw [if_neg heq]
        have hgreater : other < name := Std.lt_of_le_of_ne (String.not_lt.1 hlt) (Ne.symm heq)
        refine List.pairwise_cons.2 ⟨?_, ih hrest⟩
        -- What is put in is greater, and so is all that was there.
        intro later hlater
        rcases mem_keys_insert.1 (List.mem_map_of_mem hlater) with hkey | hkey
        · rw [hkey]
          exact hgreater
        · obtain ⟨found, hfound, hkey⟩ := List.mem_map.1 hkey
          rw [← hkey]
          exact hother found hfound

end

variable {members : List (String × Json)} {key : String}

/-- What is put into a record one by one is put over what was there. -/
theorem lookup_foldl_insert (members : List (String × Json)) (key : String) (record : Record) :
    (members.foldl (fun record member => insert member.1 member.2 record) record).lookup key =
      (last? members key).or (record.lookup key) := by
  induction members generalizing record with
  | nil => rfl
  | cons member members ih =>
    rw [List.foldl_cons, ih, lookup_insert, last?, last?, List.reverse_cons, List.lookup_append,
      Option.or_assoc, lookup_cons_eq_ite]
    congr 1
    by_cases hkey : (key == member.1) = true
    · rw [if_pos hkey, if_pos hkey, Option.some_or]
    · rw [if_neg hkey, if_neg hkey, List.lookup_nil, Option.none_or]

/-- The record of an object has the last values of its keys. -/
theorem lookup_ofMembers : (ofMembers members).lookup key = last? members key := by
  have hfold := lookup_foldl_insert members key []
  rw [List.lookup_nil, Option.or_none] at hfold
  exact hfold

/-- The record of an object is sorted. -/
theorem sorted_ofMembers (members : List (String × Json)) : (ofMembers members).Sorted := by
  suffices h : ∀ record : Record, record.Sorted →
      Sorted (members.foldl (fun record member => insert member.1 member.2 record) record) from
    h [] List.Pairwise.nil
  induction members with
  | nil => exact fun record h => h
  | cons member members ih =>
    intro record h
    rw [List.foldl_cons]
    exact ih _ (sorted_insert h)

/-- An object has a key exactly if it has a value there. -/
theorem exists_last?_iff :
    (∃ value, last? members key = some value) ↔ key ∈ members.map Prod.fst := by
  unfold last?
  rw [exists_lookup_iff, List.map_reverse, List.mem_reverse]

/-- The record of an object has its keys. -/
theorem mem_keys_ofMembers :
    key ∈ (ofMembers members).map Prod.fst ↔ key ∈ members.map Prod.fst := by
  rw [← exists_lookup_iff, ← exists_last?_iff, lookup_ofMembers]

end Record

/-! ### Cells -/

/-- Whether a value is an array or an object. -/
def Json.isContainer : Json → Bool
  | .arr _ => true
  | .obj _ => true
  | _ => false

/-- Containers are no cells, and all other values are. -/
theorem Cell.ofJson?_eq_none_iff {value : Json} :
    ofJson? value = none ↔ value.isContainer = true := by
  cases value <;> simp [ofJson?, Json.isContainer]

/-- A row has the cell of an object under a field: its own, or null if it has
    none. -/
def Record.Gives (members : List (String × Json)) (field : String) (cell : Cell) : Prop :=
  match last? members field with
  | some value => Cell.ofJson? value = some cell
  | none => cell = .null

namespace Record

variable {members : List (String × Json)} {field : String}

theorem cell_eq_ok_iff {c : Cell} :
    (ofMembers members).cell field = .ok c ↔ Gives members field c := by
  unfold cell Gives
  rw [lookup_ofMembers]
  cases last? members field with
  | none => simp [eq_comm]
  | some value =>
    cases hcell : Cell.ofJson? value with
    | none => simp [hcell]
    | some found => simp [hcell]

/-- There is no cell under a field exactly if a container is there. -/
theorem cell_eq_error_iff {e : Failure} :
    (ofMembers members).cell field = .error e ↔
      e = .badTable (.nestedValue field) ∧
        ∃ value, last? members field = some value ∧ value.isContainer = true := by
  unfold cell
  rw [lookup_ofMembers]
  cases last? members field with
  | none => simp
  | some value =>
    cases hcell : Cell.ofJson? value with
    | none =>
      have hcontainer := Cell.ofJson?_eq_none_iff.1 hcell
      simp only [hcell, Except.error.injEq]
      constructor
      · intro h
        exact ⟨h.symm, value, rfl, hcontainer⟩
      · intro ⟨h, _⟩
        exact h.symm
    | some found =>
      have hprimitive : value.isContainer = false := by
        rw [Bool.eq_false_iff]
        intro hcontainer
        rw [Cell.ofJson?_eq_none_iff.2 hcontainer] at hcell
        cases hcell
      simp [hcell, hprimitive]

end Record

/-! ### The order of the fields -/

/-- The number of the first object that has a key. -/
def firstWith (objects : List (List (String × Json))) (key : String) : Nat :=
  objects.findIdx fun members => (members.map Prod.fst).contains key

/-- The one key first appears in an earlier object than the other, or in the
    same one and is less. -/
def AppearsBefore (objects : List (List (String × Json))) (key other : String) : Prop :=
  firstWith objects key < firstWith objects other ∨
    firstWith objects key = firstWith objects other ∧ key < other

section

variable {members : List (String × Json)} {objects : List (List (String × Json))}
  {key : String}

theorem firstWith_cons_of_mem (h : key ∈ members.map Prod.fst) :
    firstWith (members :: objects) key = 0 := by
  have hcontains : (members.map Prod.fst).contains key = true := List.contains_iff_mem.2 h
  rw [firstWith, List.findIdx_cons, hcontains]
  rfl

theorem firstWith_cons_of_not_mem (h : key ∉ members.map Prod.fst) :
    firstWith (members :: objects) key = firstWith objects key + 1 := by
  have hcontains : (members.map Prod.fst).contains key = false := by
    rw [Bool.eq_false_iff]
    exact fun hcontains => h (List.contains_iff_mem.1 hcontains)
  rw [firstWith, List.findIdx_cons, hcontains]
  rfl

/-- The keys of a record are all different. -/
theorem eraseDups_keys_ofMembers (members : List (String × Json)) :
    ((Record.ofMembers members).map Prod.fst).eraseDups =
      (Record.ofMembers members).map Prod.fst := by
  apply eraseDups_eq_self
  rw [List.pairwise_map]
  refine (Record.sorted_ofMembers members).imp ?_
  intro member later hlt
  rw [beq_eq_false_iff_ne]
  intro heq
  rw [heq] at hlt
  exact String.lt_irrefl _ hlt

end

namespace Table

variable {members : List (String × Json)} {objects : List (List (String × Json))}
  {field : String}

/-- The fields of one more object come first, in their order, and then those
    of the others that it does not have. -/
theorem fieldsOfRecords_cons :
    fieldsOfRecords ((members :: objects).map Record.ofMembers) =
      (Record.ofMembers members).map Prod.fst ++
        (fieldsOfRecords (objects.map Record.ofMembers)).filter
          fun field => !((Record.ofMembers members).map Prod.fst).contains field := by
  have hsame : ∀ x y : String, (y == x) = true →
      (!((Record.ofMembers members).map Prod.fst).contains y) =
        !((Record.ofMembers members).map Prod.fst).contains x := by
    intro x y heq
    rw [eq_of_beq heq]
  unfold fieldsOfRecords
  rw [List.map_cons, List.flatMap_cons, List.eraseDups_append, eraseDups_keys_ofMembers,
    ← eraseDups_filter hsame]
  rfl

/-- The fields are the keys of the objects. -/
theorem mem_fieldsOfRecords :
    field ∈ fieldsOfRecords (objects.map Record.ofMembers) ↔
      ∃ members ∈ objects, field ∈ members.map Prod.fst := by
  unfold fieldsOfRecords
  rw [List.mem_eraseDups, List.mem_flatMap]
  constructor
  · intro ⟨record, hrecord, hfield⟩
    obtain ⟨members, hmembers, rfl⟩ := List.mem_map.1 hrecord
    exact ⟨members, hmembers, Record.mem_keys_ofMembers.1 hfield⟩
  · intro ⟨members, hmembers, hfield⟩
    exact ⟨_, List.mem_map_of_mem hmembers, Record.mem_keys_ofMembers.2 hfield⟩

/-- The fields are in the order of their first appearance. -/
theorem pairwise_fieldsOfRecords (objects : List (List (String × Json))) :
    (fieldsOfRecords (objects.map Record.ofMembers)).Pairwise (AppearsBefore objects) := by
  induction objects with
  | nil => exact List.Pairwise.nil
  | cons members objects ih =>
    rw [fieldsOfRecords_cons, List.pairwise_append]
    have hfirst : ∀ key ∈ (Record.ofMembers members).map Prod.fst,
        firstWith (members :: objects) key = 0 := by
      intro key hkey
      exact firstWith_cons_of_mem (Record.mem_keys_ofMembers.1 hkey)
    have hlater : ∀ key ∈ (fieldsOfRecords (objects.map Record.ofMembers)).filter
          (fun field => !((Record.ofMembers members).map Prod.fst).contains field),
        firstWith (members :: objects) key = firstWith objects key + 1 := by
      intro key hkey
      have hnew := (List.mem_filter.1 hkey).2
      apply firstWith_cons_of_not_mem
      intro hmem
      rw [List.contains_iff_mem.2 (Record.mem_keys_ofMembers.2 hmem)] at hnew
      cases hnew
    refine ⟨?_, ?_, ?_⟩
    · -- All keys of the first object appear in it, and they are sorted.
      have hsorted : ((Record.ofMembers members).map Prod.fst).Pairwise (· < ·) :=
        List.pairwise_map.2 (Record.sorted_ofMembers members)
      refine hsorted.imp_of_mem ?_
      intro key other hkey hother hlt
      right
      exact ⟨by rw [hfirst key hkey, hfirst other hother], hlt⟩
    · -- The others appear in the same order, one object later.
      refine (ih.filter _).imp_of_mem ?_
      intro key other hkey hother hbefore
      unfold AppearsBefore
      rw [hlater key hkey, hlater other hother]
      rcases hbefore with hlt | ⟨heq, hlt⟩
      · exact .inl (Nat.succ_lt_succ hlt)
      · exact .inr ⟨congrArg Nat.succ heq, hlt⟩
    · intro key hkey other hother
      left
      rw [hfirst key hkey, hlater other hother]
      exact Nat.succ_pos _

/-! ### Tables -/

/-- A table holds objects: a row for each of them, and in it all that they
    have. -/
structure IsOf (t : Table) (objects : List (List (String × Json))) : Prop where
  /-- There is one row for each object. -/
  height : t.height = objects.length
  /-- Every row has a cell for every field. -/
  rectangular : t.Rectangular
  /-- No field is there twice. -/
  nodup : t.fields.Nodup
  /-- The fields are the keys of the objects. -/
  mem_fields : ∀ field, field ∈ t.fields ↔ ∃ members ∈ objects, field ∈ members.map Prod.fst
  /-- They are in the order in which they first appear. -/
  ordered : t.fields.Pairwise (AppearsBefore objects)
  /-- Under every field an object has its own cell, or null. -/
  cells : ∀ r members, objects[r]? = some members → ∀ field ∈ t.fields,
    ∃ cell, t.value? r field = some cell ∧ Record.Gives members field cell

/-- The objects that a text is an array of. -/
def Lists (codec : Json.Codec) (text : String) (objects : List (List (String × Json))) : Prop :=
  codec.read? text = some (.arr (objects.map .obj))

variable {codec : Json.Codec}

/-- A text is an array of the same objects only. -/
theorem Lists.eq {text : String} {others : List (List (String × Json))}
    (h : Lists codec text objects) (h' : Lists codec text others) : others = objects := by
  unfold Lists at h h'
  rw [h, Option.some.injEq, Json.arr.injEq] at h'
  exact (List.map_injective_iff.2 (fun _ _ => Json.obj.inj) h').symm

/-- The text of an array of objects lists these objects. -/
theorem lists_text (hwritable : (Json.arr (objects.map .obj)).IsWritable)
    (hdepth : (Json.arr (objects.map .obj)).depth < Json.nestingLimit) :
    Lists .compact (Json.arr (objects.map .obj)).text objects :=
  Json.Codec.isFaithful_compact.read?_write _ hwritable hdepth

/-- Every item of an array of records is an object. -/
theorem mapM_ofJson?_eq_some_iff {items : List Json} {records : List Record} :
    items.mapM Record.ofJson? = some records ↔
      ∃ objects : List (List (String × Json)), items = objects.map .obj ∧
        records = objects.map Record.ofMembers := by
  rw [mapM_eq_some_iff]
  constructor
  · intro h
    induction h with
    | nil => exact ⟨[], rfl, rfl⟩
    | @cons item record items records hitem _ ih =>
      obtain ⟨objects, hitems, hrecords⟩ := ih
      cases item with
      | obj members =>
        cases hitem
        exact ⟨members :: objects, by rw [hitems, List.map_cons], by rw [hrecords, List.map_cons]⟩
      | _ => cases hitem
  · intro ⟨objects, hitems, hrecords⟩
    rw [hitems, hrecords, List.forall₂_map_left_iff, List.forall₂_map_right_iff, List.forall₂_same]
    intro members _
    rfl

/-- The records of a text are those of the objects that it lists. -/
theorem records?_eq_some_iff {text : String} {records : List Record} :
    records? codec text = some records ↔
      ∃ objects, Lists codec text objects ∧ records = objects.map Record.ofMembers := by
  unfold records? Lists
  constructor
  · intro h
    split at h
    · next items hitems =>
      obtain ⟨objects, heq, hrecords⟩ := mapM_ofJson?_eq_some_iff.1 h
      rw [heq] at hitems
      exact ⟨objects, hitems, hrecords⟩
    · cases h
  · intro ⟨objects, hread, hrecords⟩
    rw [hread]
    exact mapM_ofJson?_eq_some_iff.2 ⟨objects, rfl, hrecords⟩

/-- The table of records has their rows, cell by cell. -/
theorem ofRecords_eq_ok_iff {records : List Record} {t : Table} :
    ofRecords records = .ok t ↔
      t.fields = fieldsOfRecords records ∧
        List.Forall₂ (fun record row =>
          List.Forall₂ (fun field cell => record.cell field = .ok cell) t.fields row)
          records t.rows := by
  unfold ofRecords
  rw [bind_eq_ok_iff]
  constructor
  · intro ⟨rows, hrows, h⟩
    cases h
    refine ⟨rfl, (mapM_eq_ok_iff.1 hrows).imp ?_⟩
    intro record row hrow
    exact mapM_eq_ok_iff.1 hrow
  · intro ⟨hfields, hrows⟩
    refine ⟨t.rows, mapM_eq_ok_iff.2 (hrows.imp ?_), ?_⟩
    · intro record row hrow
      rw [← hfields]
      exact mapM_eq_ok_iff.2 hrow
    · rw [← hfields]
      rfl

/-- The table of the records of some objects holds the objects. -/
theorem isOf_of_ofRecords {t : Table} (h : ofRecords (objects.map Record.ofMembers) = .ok t) :
    t.IsOf objects := by
  obtain ⟨hfields, hrows⟩ := ofRecords_eq_ok_iff.1 h
  have hnodup : t.fields.Nodup := by
    rw [hfields]
    exact nodup_eraseDups _
  constructor
  · rw [height, ← hrows.length_eq, List.length_map]
  · intro row hrow
    obtain ⟨record, -, hcells⟩ := exists_of_forall₂_of_mem hrows hrow
    exact hcells.length_eq.symm
  · exact hnodup
  · intro field
    rw [hfields]
    exact mem_fieldsOfRecords
  · rw [hfields]
    exact pairwise_fieldsOfRecords objects
  · intro r members hmembers field hfield
    -- The row at the number of the object, and the cell at the place of the field.
    obtain ⟨row, hrow, hcells⟩ :=
      exists_getElem?_of_forall₂ (List.forall₂_map_left_iff.1 hrows) hmembers
    obtain ⟨position, hposition⟩ := hasField_iff_exists.1 (hasField_iff_mem.2 hfield)
    obtain ⟨hlt, hat, -⟩ := List.findIdx?_eq_some_iff_getElem.1 hposition
    have hname : t.fields[position]? = some field := by
      rw [List.getElem?_eq_getElem hlt, beq_iff_eq.1 hat]
    obtain ⟨cell, hcell, hgives⟩ := exists_getElem?_of_forall₂ hcells hname
    refine ⟨cell, ?_, Record.cell_eq_ok_iff.1 hgives⟩
    simp [value?, hposition, hrow, hcell]

/-- Records are refused exactly if one of them holds a container. -/
theorem exists_ofRecords_eq_error_iff :
    (∃ e, ofRecords (objects.map Record.ofMembers) = .error e) ↔
      ∃ members ∈ objects, ∃ key value, Record.last? members key = some value ∧
        value.isContainer = true := by
  constructor
  · intro ⟨e, h⟩
    unfold ofRecords at h
    obtain ⟨record, hrecord, hrow⟩ := exists_of_mapM_eq_error (of_bind_ok_eq_error h)
    obtain ⟨members, hmembers, rfl⟩ := List.mem_map.1 hrecord
    obtain ⟨field, -, hcell⟩ := exists_of_mapM_eq_error hrow
    obtain ⟨-, value, hvalue, hcontainer⟩ := Record.cell_eq_error_iff.1 hcell
    exact ⟨members, hmembers, field, value, hvalue, hcontainer⟩
  · intro ⟨members, hmembers, key, value, hvalue, hcontainer⟩
    cases htable : ofRecords (objects.map Record.ofMembers) with
    | error e => exact ⟨e, rfl⟩
    | ok t =>
      -- The key would be a field, and the container a cell under it.
      have hof := isOf_of_ofRecords htable
      have hkey : key ∈ t.fields :=
        (hof.mem_fields key).2 ⟨members, hmembers, Record.exists_last?_iff.1 ⟨value, hvalue⟩⟩
      obtain ⟨r, hr⟩ := List.mem_iff_getElem?.1 hmembers
      obtain ⟨cell, -, hgives⟩ := hof.cells r members hr key hkey
      unfold Record.Gives at hgives
      rw [hvalue] at hgives
      dsimp only at hgives
      rw [Cell.ofJson?_eq_none_iff.2 hcontainer] at hgives
      cases hgives

/-- A table that is read holds the objects of its text. A text is refused
    exactly if it is no array of objects, or if an object has a container as
    the last value of a key. -/
theorem isOf_of_read (text : String) :
    (∀ t, read codec text = .ok t → ∃ objects, Lists codec text objects ∧ t.IsOf objects) ∧
      ((∃ e, read codec text = .error e) ↔
        (¬ ∃ objects, Lists codec text objects) ∨
          ∃ objects, Lists codec text objects ∧ ∃ members ∈ objects, ∃ key value,
            Record.last? members key = some value ∧ value.isContainer = true) := by
  unfold read
  cases hrecords : records? codec text with
  | none =>
    have hnone : ¬ ∃ objects, Lists codec text objects := by
      intro ⟨objects, hobjects⟩
      rw [records?_eq_some_iff.2 ⟨objects, hobjects, rfl⟩] at hrecords
      cases hrecords
    constructor
    · intro t h
      cases h
    · exact ⟨fun _ => .inl hnone, fun _ => ⟨_, rfl⟩⟩
  | some records =>
    obtain ⟨objects, hobjects, rfl⟩ := records?_eq_some_iff.1 hrecords
    constructor
    · intro t h
      exact ⟨objects, hobjects, isOf_of_ofRecords h⟩
    · refine exists_ofRecords_eq_error_iff.trans ?_
      constructor
      · intro hcontainer
        exact .inr ⟨objects, hobjects, hcontainer⟩
      · intro h
        rcases h with hnone | ⟨others, hothers, hcontainer⟩
        · exact absurd ⟨objects, hobjects⟩ hnone
        · rw [hobjects.eq hothers] at hcontainer
          exact hcontainer

/-- Two objects, of which the first has a key twice. -/
def namesAndFlags : List (List (String × Json)) :=
  [[("b", .str "x"), ("a", .null), ("b", .bool true)], [("c", .str "y")]]

/-- Their table has the keys of the first object in order, then that of the
    second, and the last value of the key that is there twice. An array inside
    of an object is refused. -/
theorem isOf_of_read_of_names :
    ∃ t, read .compact (Json.arr (namesAndFlags.map .obj)).text = .ok t ∧ t.IsOf namesAndFlags ∧
      t.fields = ["a", "b", "c"] ∧ t.rows.map (·.map Cell.key) =
        [[.null, .bool true, .null], [.null, .null, .text "y"]] ∧
      ∃ e, read .compact (Json.arr [.obj [("a", .arr [])]]).text = .error e := by
  have hnames : Lists .compact (Json.arr (namesAndFlags.map .obj)).text namesAndFlags := by
    refine lists_text (.arr ?_) (by decide)
    refine List.forall_mem_cons.2 ⟨.obj ?_, List.forall_mem_singleton.2 (.obj ?_)⟩
    · exact List.forall_mem_cons.2 ⟨.str "x", List.forall_mem_cons.2 ⟨.null,
        List.forall_mem_singleton.2 (.bool true)⟩⟩
    · exact List.forall_mem_singleton.2 (.str "y")
  have hnested : Lists .compact (Json.arr ([[("a", .arr [])]].map .obj)).text
      [[("a", .arr [])]] := by
    refine lists_text (.arr ?_) (by decide)
    refine List.forall_mem_singleton.2 (.obj (List.forall_mem_singleton.2 ?_))
    exact .arr (List.forall_mem_nil _)
  obtain ⟨t, htable, hfields, hrows⟩ : ∃ t,
      ofRecords (namesAndFlags.map Record.ofMembers) = .ok t ∧ t.fields = ["a", "b", "c"] ∧
        t.rows.map (·.map Cell.key) = [[.null, .bool true, .null], [.null, .null, .text "y"]] :=
    ⟨_, rfl, rfl, rfl⟩
  have hread : read .compact (Json.arr (namesAndFlags.map .obj)).text = .ok t := by
    rw [read, records?_eq_some_iff.2 ⟨_, hnames, rfl⟩]
    exact htable
  obtain ⟨objects, hobjects, hof⟩ := (isOf_of_read _).1 t hread
  rw [hnames.eq hobjects] at hof
  have hcontainer : ∃ members ∈ [[("a", Json.arr [])]], ∃ key value,
      Record.last? members key = some value ∧ value.isContainer = true :=
    ⟨_, List.mem_singleton_self _, "a", .arr [], rfl, rfl⟩
  have herror := (isOf_of_read _).2.2 (.inr ⟨_, hnested, hcontainer⟩)
  exact ⟨t, hread, hof, hfields, hrows, herror⟩

end Table

end PlotGrammar
