import PlotGrammar.Proofs.Json.Locations
import PlotGrammar.Proofs.View.Alternatives

/-! # The grammar of views

  The readers of views as data. A `Form` is what a place of a view expects,
  and a `Role` is what a value there turns out to be: one of the things with
  named parts, or a name. Each role has keys, with a form for the part under
  each key (`Role.parts`), and each form has some roles, of which the value
  plays the one whose reader accepts it (`Form.role?`). The steps of a node and
  the views of a body are lists, whose items have a form in common.

  From the form of the whole, the roles of all values inside follow, location
  by location (`Form.roleAt?`).

  `Form.Admits` says what a value must be like to be read in a place. Every
  reader only accepts what the form of its place admits, and so the parts of
  what plays a role are admitted by their forms (`Role.admits_child`).
-/

namespace PlotGrammar

/-! ### Forms and roles -/

/-- What a place of a view expects. -/
inductive Form where
  | view
  /-- A mark, a single view or an array of views. -/
  | body
  /-- The array of the steps of a node. -/
  | steps
  | step
  | encoding
  /-- A field or a constant. -/
  | definition
  /-- A layout, as a name or with its parts. -/
  | layout
  | layoutName
  | fieldType
  | coordinates
  /-- A string, a number, a boolean or null. -/
  | scalar
deriving DecidableEq

/-- What a value of a view is. -/
inductive Role where
  | view
  | encoding
  /-- A definition that refers to a field. -/
  | field
  | bin
  | aggregate
  /-- A layout that is written with its parts. -/
  | layout
  /-- The name of a mark, a measurement type, a coordinate system or a layout. -/
  | name (text : String)
deriving DecidableEq

namespace Role

/-- The keys of a role, and what is expected under each. An object that stands
    for a name has the name as its only key. -/
def parts : Role → List (String × Form)
  | .view => [("transform", .steps), ("view", .body), ("encoding", .encoding)]
  | .encoding => (Channel.all.map fun channel => (channel.name, .definition)) ++
      [("coordinates", .coordinates), ("layout", .layout)]
  | .field => [("field", .scalar), ("type", .fieldType)]
  | .bin => [("bin", .scalar), ("as", .scalar), ("step", .scalar), ("maxbins", .scalar)]
  | .aggregate => [("aggregate", .scalar), ("field", .scalar), ("as", .scalar)]
  | .layout => [("type", .layoutName), ("columns", .scalar)]
  | .name text => [(text, .scalar)]

/-- The keys of a role. -/
def keys (role : Role) : List String := role.parts.map Prod.fst

/-- Keys that an object of the role cannot do without. -/
def required : Role → List String
  | .view => ["view", "encoding"]
  | .encoding => []
  | .field => ["field"]
  | .bin => ["bin", "as"]
  | .aggregate => ["aggregate", "as"]
  | .layout => ["type"]
  | .name text => [text]

/-- Whether the reader of the role accepts a value. -/
def reads : Role → Json → Bool
  | .view, value => (View.fromJson? value).isSome
  | .encoding, value => (Encoding.ofJson? value).isSome
  | .field, value => (Definition.ofFieldJson? value).isSome
  | .bin, value => (BinStep.ofJson? value).isSome
  | .aggregate, value => (AggregateStep.ofJson? value).isSome
  | .layout, value => (Layout.ofPartsJson? value).isSome
  | .name text, value => name? value == some text

/-- What is expected of the child at a position: the key of the member counts
    in an object, and the position itself in an array. -/
def formAt? (role : Role) : Json → Nat → Option Form
  | .arr _, i => (role.parts[i]?).map Prod.snd
  | .obj members, i => (members[i]?).bind fun member => role.parts.lookup member.1
  | _, _ => none

end Role

namespace Form

/-- The names of layouts. -/
def layoutRoles : List Role :=
  [.name "layer", .name "horizontal", .name "vertical", .name "wrap"]

/-- The roles that a value of the form may play. -/
def roles : Form → List Role
  | .view => [.view]
  | .body => .view :: MarkKind.all.map fun kind => .name kind.name
  | .steps => []
  | .step => [.bin, .aggregate]
  | .encoding => [.encoding]
  | .definition => [.field]
  | .layout => .layout :: layoutRoles
  | .layoutName => layoutRoles
  | .fieldType => [.name "ordinal", .name "quantitative"]
  | .coordinates => [.name "cartesian", .name "radial"]
  | .scalar => []

/-- What is expected of the items, where the form may be a list. -/
def itemForm? : Form → Option Form
  | .body => some .view
  | .steps => some .step
  | _ => none

/-- The role that a value plays. -/
def role? (form : Form) (value : Json) : Option Role :=
  form.roles.find? fun role => role.reads value

/-- What is expected of the child of a value at a position. -/
def childForm? (form : Form) (value : Json) (i : Nat) : Option Form :=
  match form.role? value with
  | some role => role.formAt? value i
  | none => form.itemForm?

/-- The role of the value at a location inside of a value of the form. -/
def roleAt? : Form → Json → List Nat → Option Role
  | form, value, [] => form.role? value
  | form, value, i :: rest =>
    (form.childForm? value i).bind fun inner =>
      (value.child? i).bind fun part => inner.roleAt? part rest

/-- What a value must be like to be read as the form. -/
inductive Admits (form : Form) : Json → Prop where
  | scalar {value : Json} (h : value.depth = 0) : Admits form value
  | role (role : Role) {value : Json} (hrole : role ∈ form.roles) (h : role.reads value = true) :
    Admits form value
  | items (inner : Form) {items : List Json} (hinner : form.itemForm? = some inner)
    (h : ∀ item ∈ items, ∃ role ∈ inner.roles, role.reads item = true) : Admits form (.arr items)

/-- Two roles of a form differ in that one of them needs a key that the other
    does not know. -/
theorem exists_required (form : Form) : ∀ role ∈ form.roles, ∀ other ∈ form.roles, role ≠ other →
    ∃ key ∈ role.required, key ∉ other.keys := by
  cases form <;> decide

/-- And only one of them can have arrays or objects for its parts. -/
theorem scalar_or_scalar (form : Form) : ∀ role ∈ form.roles, ∀ other ∈ form.roles, role ≠ other →
    (∀ part ∈ role.parts, part.2 = .scalar) ∨ ∀ part ∈ other.parts, part.2 = .scalar := by
  cases form <;> decide

end Form

/-! ### What places admit -/

section

variable {form : Form} {value : Json}

theorem Form.Admits.of_name? {text : String} (hrole : Role.name text ∈ form.roles)
    (h : name? value = some text) : form.Admits value := by
  apply Form.Admits.role (.name text) hrole
  rw [Role.reads, h]
  exact beq_self_eq_true (some text)

/-- What is read by its name is admitted where all names of its kind are. -/
theorem Form.Admits.of_names {α : Type} {read : String → Option α} {a : α}
    (hform : ∀ text, read text ≠ none → Role.name text ∈ form.roles)
    (h : (name? value).bind read = some a) : form.Admits value := by
  obtain ⟨text, hname, htext⟩ := Option.bind_eq_some_iff.1 h
  exact .of_name? (hform text (by rw [htext]; exact Option.some_ne_none a)) hname

theorem admits_of_layoutName (hform : ∀ role ∈ Form.layoutRoles, role ∈ form.roles) {text : String}
    {kind : LayoutKind} (hname : name? value = some text)
    (hkind : LayoutKind.ofName? text = some kind) : form.Admits value := by
  refine .of_name? (hform _ ?_) hname
  unfold LayoutKind.ofName? at hkind
  split at hkind
  · decide
  · decide
  · decide
  · decide
  · cases hkind

theorem Layout.admits_of_ofJson? {layout : Layout} (h : ofJson? value = some layout) :
    Form.layout.Admits value := by
  unfold ofJson? at h
  rcases Option.or_eq_some_iff.1 h with hname | ⟨-, hparts⟩
  · obtain ⟨text, hname, hkind⟩ := Option.bind_eq_some_iff.1 hname
    obtain ⟨kind, hkind, -⟩ := Option.bind_eq_some_iff.1 hkind
    exact admits_of_layoutName (by decide) hname hkind
  · exact .role .layout (by decide) (Option.isSome_iff_exists.2 ⟨layout, hparts⟩)

theorem FieldType.admits_of_ofJson? {type : FieldType} (h : ofJson? value = some type) :
    Form.fieldType.Admits value := by
  unfold ofJson? at h
  exact .of_names (fun text => by split <;> simp [Form.roles]) h

theorem Coordinates.admits_of_ofJson? {coordinates : Coordinates}
    (h : ofJson? value = some coordinates) : Form.coordinates.Admits value := by
  unfold ofJson? at h
  exact .of_names (fun text => by split <;> simp [Form.roles]) h

theorem Definition.admits_of_ofJson? {d : Definition} (h : ofJson? value = some d) :
    Form.definition.Admits value := by
  unfold ofJson? at h
  rcases Option.or_eq_some_iff.1 h with hfield | ⟨-, hliteral⟩
  · exact .role .field (by decide) (Option.isSome_iff_exists.2 ⟨d, hfield⟩)
  · exact .scalar (depth_of_ofLiteralJson? hliteral)

theorem Step.admits_of_ofJson? {step : Step} (h : ofJson? value = some step) :
    ∃ role ∈ Form.step.roles, role.reads value = true := by
  unfold ofJson? at h
  rcases Option.or_eq_some_iff.1 h with hbin | ⟨-, haggregate⟩
  · obtain ⟨bin, hbin, -⟩ := Option.map_eq_some_iff.1 hbin
    exact ⟨.bin, by decide, Option.isSome_iff_exists.2 ⟨bin, hbin⟩⟩
  · obtain ⟨aggregate, haggregate, -⟩ := Option.map_eq_some_iff.1 haggregate
    exact ⟨.aggregate, by decide, Option.isSome_iff_exists.2 ⟨aggregate, haggregate⟩⟩

/-- A body is a name, a view or an array of views. -/
theorem View.admits_of_ofBody? {head : ViewHead} {v : View}
    (h : ofBody? fromJson? head value = some v) : Form.body.Admits value := by
  unfold ofBody? at h
  rcases Option.or_eq_some_iff.1 h with hmark | ⟨-, h⟩
  · obtain ⟨kind, hkind, -⟩ := Option.map_eq_some_iff.1 hmark
    obtain ⟨text, hname, hkind⟩ := Option.bind_eq_some_iff.1 hkind
    unfold MarkKind.ofName? at hkind
    have hfound := List.find?_some hkind
    have htext : kind.name = text := eq_of_beq hfound
    have hmem : Role.name kind.name ∈ Form.body.roles :=
      List.mem_cons_of_mem _ (List.mem_map_of_mem (List.mem_of_find?_eq_some hkind))
    rw [← htext] at hname
    exact .of_name? hmem hname
  · rcases Option.or_eq_some_iff.1 h with hsingle | ⟨-, h⟩
    · obtain ⟨child, hchild, -⟩ := Option.map_eq_some_iff.1 hsingle
      exact .role .view (by decide) (Option.isSome_iff_exists.2 ⟨child, hchild⟩)
    · cases value with
      | arr items =>
        obtain ⟨children, hchildren, -⟩ := Option.map_eq_some_iff.1 h
        refine .items .view rfl ?_
        intro item hitem
        obtain ⟨child, hchild⟩ := exists_of_mapM_eq_some hchildren hitem
        exact ⟨.view, by decide, Option.isSome_iff_exists.2 ⟨child, hchild⟩⟩
      | _ => cases h

theorem admits_of_steps? {steps : List Step} (h : steps? (some value) = some steps) :
    Form.steps.Admits value := by
  cases value with
  | arr items =>
    refine .items .step rfl ?_
    intro item hitem
    obtain ⟨step, hstep⟩ := exists_of_mapM_eq_some h hitem
    exact Step.admits_of_ofJson? hstep
  | _ => cases h

theorem admits_of_float? {x : Float} (h : value.float? = some x) : Form.scalar.Admits value := by
  cases value with
  | num n => exact .scalar rfl
  | _ => cases h

theorem admits_of_str? {s : String} (h : value.str? = some s) : Form.scalar.Admits value := by
  rw [eq_str_of_str? h]
  exact .scalar rfl

theorem admits_of_count? {n : UInt64} (h : count? value = some n) : Form.scalar.Admits value := by
  cases value with
  | num n => exact .scalar rfl
  | _ => cases h

end

/-! ### The parts of a role -/

namespace Role

/-- What may stand under a key of a role: what the form of the part admits, or
    nothing if the key is not required. -/
inductive Takes (role : Role) (part : String × Form) : Option Json → Prop where
  | missing (h : part.1 ∉ role.required) : Takes role part none
  | present {value : Json} (h : part.2.Admits value) : Takes role part (some value)

/-- An optional part is missing, null, or accepted by its reader. -/
theorem takes_of_optionalPart? {role : Role} {part : String × Form} {α : Type}
    {read : Json → Option α} {value : Option Json} {a : Option α} (hkey : part.1 ∉ role.required)
    (hread : ∀ j b, read j = some b → part.2.Admits j) (h : optionalPart? read value = some a) :
    role.Takes part value := by
  unfold optionalPart? at h
  split at h
  · exact .missing hkey
  · exact .present (.scalar rfl)
  · next value _ =>
    obtain ⟨b, hb, -⟩ := Option.map_eq_some_iff.1 h
    exact .present (hread value b hb)

/-- The parts of what plays a role. -/
structure HasParts (role : Role) (value : Json) (ps : List (Option Json)) : Prop where
  eq_some : parts? role.keys value = some ps
  takes : List.Forall₂ role.Takes role.parts ps

variable {value : Json}

theorem hasParts_view {v : View} (h : View.fromJson? value = some v) :
    ∃ ps, Role.view.HasParts value ps := by
  rw [View.fromJson?_eq] at h
  obtain ⟨⟨head, body⟩, hnode, hbody⟩ := Option.bind_eq_some_iff.1 h
  obtain ⟨steps, encoding, hps, hsteps, hencoding⟩ := View.parts_of_headAndBody? hnode
  have htransform : Role.view.Takes ("transform", .steps) steps := by
    cases steps with
    | none => exact .missing (by decide)
    | some steps => exact .present (admits_of_steps? hsteps)
  have hread : Form.encoding.Admits encoding :=
    .role .encoding (by decide) (Option.isSome_iff_exists.2 ⟨_, hencoding⟩)
  exact ⟨_, hps, .cons htransform (.cons (.present (View.admits_of_ofBody? hbody))
    (.cons (.present hread) .nil))⟩

theorem hasParts_encoding {e : Encoding} (h : Encoding.ofJson? value = some e) :
    ∃ ps, Role.encoding.HasParts value ps := by
  unfold Encoding.ofJson? at h
  obtain ⟨ps, hps, h⟩ := Option.bind_eq_some_iff.1 h
  have hchannel : ∀ {key : String} {part : Option Json} {d : Option Definition},
      optionalPart? Definition.ofJson? part = some d →
        Role.encoding.Takes (key, .definition) part := fun hpart =>
    takes_of_optionalPart? List.not_mem_nil (fun _ _ => Definition.admits_of_ofJson?) hpart
  split at h
  · simp only [Option.bind_eq_bind, Option.bind_eq_some_iff, Option.pure_def,
      Option.some.injEq] at h
    obtain ⟨x, hx, y, hy, z, hz, color, hcolor, shape, hshape, opacity, hopacity, size, hsize,
      angle, hangle, detail, hdetail, coordinates, hcoordinates, layout, hlayout, -⟩ := h
    have hcoordinates : Role.encoding.Takes ("coordinates", .coordinates) _ :=
      takes_of_optionalPart? List.not_mem_nil (fun _ _ => Coordinates.admits_of_ofJson?)
        hcoordinates
    have hlayout : Role.encoding.Takes ("layout", .layout) _ :=
      takes_of_optionalPart? List.not_mem_nil (fun _ _ => Layout.admits_of_ofJson?) hlayout
    exact ⟨_, hps, .cons (hchannel hx) <| .cons (hchannel hy) <| .cons (hchannel hz) <|
      .cons (hchannel hcolor) <| .cons (hchannel hshape) <| .cons (hchannel hopacity) <|
      .cons (hchannel hsize) <| .cons (hchannel hangle) <| .cons (hchannel hdetail) <|
      .cons hcoordinates <| .cons hlayout .nil⟩
  · cases h

theorem hasParts_field {d : Definition} (h : Definition.ofFieldJson? value = some d) :
    ∃ ps, Role.field.HasParts value ps := by
  unfold Definition.ofFieldJson? at h
  obtain ⟨ps, hps, h⟩ := Option.bind_eq_some_iff.1 h
  split at h
  · obtain ⟨name, hname, h⟩ := Option.bind_eq_some_iff.1 h
    obtain ⟨type, htype, -⟩ := Option.bind_eq_some_iff.1 h
    have htype : Role.field.Takes ("type", .fieldType) _ :=
      takes_of_optionalPart? (by decide) (fun _ _ => FieldType.admits_of_ofJson?) htype
    exact ⟨_, hps, .cons (.present (admits_of_str? hname)) (.cons htype .nil)⟩
  · cases h

theorem hasParts_bin {step : BinStep} (h : BinStep.ofJson? value = some step) :
    ∃ ps, Role.bin.HasParts value ps := by
  unfold BinStep.ofJson? at h
  obtain ⟨ps, hps, h⟩ := Option.bind_eq_some_iff.1 h
  split at h
  · obtain ⟨field, hfield, h⟩ := Option.bind_eq_some_iff.1 h
    obtain ⟨out, hout, h⟩ := Option.bind_eq_some_iff.1 h
    obtain ⟨width, hwidth, h⟩ := Option.bind_eq_some_iff.1 h
    obtain ⟨maxBins, hmaxBins, -⟩ := Option.bind_eq_some_iff.1 h
    have hwidth : Role.bin.Takes ("step", .scalar) _ :=
      takes_of_optionalPart? (by decide) (fun _ _ => admits_of_float?) hwidth
    have hmaxBins : Role.bin.Takes ("maxbins", .scalar) _ :=
      takes_of_optionalPart? (by decide) (fun _ _ => admits_of_count?) hmaxBins
    exact ⟨_, hps, .cons (.present (admits_of_str? hfield)) (.cons (.present (admits_of_str? hout))
      (.cons hwidth (.cons hmaxBins .nil)))⟩
  · cases h

theorem hasParts_aggregate {step : AggregateStep}
    (h : AggregateStep.ofJson? value = some step) : ∃ ps, Role.aggregate.HasParts value ps := by
  unfold AggregateStep.ofJson? at h
  obtain ⟨ps, hps, h⟩ := Option.bind_eq_some_iff.1 h
  split at h
  · obtain ⟨function, hfunction, h⟩ := Option.bind_eq_some_iff.1 h
    obtain ⟨field, hfield, h⟩ := Option.bind_eq_some_iff.1 h
    obtain ⟨out, hout, -⟩ := Option.bind_eq_some_iff.1 h
    have hfield : Role.aggregate.Takes ("field", .scalar) _ :=
      takes_of_optionalPart? (by decide) (fun _ _ => admits_of_str?) hfield
    exact ⟨_, hps, .cons (.present (admits_of_str? hfunction)) (.cons hfield
      (.cons (.present (admits_of_str? hout)) .nil))⟩
  · cases h

theorem hasParts_layout {l : Layout} (h : Layout.ofPartsJson? value = some l) :
    ∃ ps, Role.layout.HasParts value ps := by
  unfold Layout.ofPartsJson? at h
  obtain ⟨ps, hps, h⟩ := Option.bind_eq_some_iff.1 h
  split at h
  · obtain ⟨text, hname, h⟩ := Option.bind_eq_some_iff.1 h
    obtain ⟨kind, hkind, h⟩ := Option.bind_eq_some_iff.1 h
    obtain ⟨columns, hcolumns, -⟩ := Option.bind_eq_some_iff.1 h
    have hcolumns : Role.layout.Takes ("columns", .scalar) _ :=
      takes_of_optionalPart? (by decide) (fun _ _ => admits_of_float?) hcolumns
    have htype : Form.layoutName.Admits _ := admits_of_layoutName (by decide) hname hkind
    exact ⟨_, hps, .cons (.present htype) (.cons hcolumns .nil)⟩
  · cases h

/-- What plays a role is a name, or has the parts of the role. -/
theorem cases_of_reads {role : Role} (h : role.reads value = true) :
    (∃ text, role = .name text ∧ name? value = some text) ∨ ∃ ps, role.HasParts value ps := by
  cases role with
  | name text => exact .inl ⟨text, rfl, eq_of_beq h⟩
  | view =>
    obtain ⟨v, hv⟩ := Option.isSome_iff_exists.1 h
    exact .inr (hasParts_view hv)
  | encoding =>
    obtain ⟨e, he⟩ := Option.isSome_iff_exists.1 h
    exact .inr (hasParts_encoding he)
  | field =>
    obtain ⟨d, hd⟩ := Option.isSome_iff_exists.1 h
    exact .inr (hasParts_field hd)
  | bin =>
    obtain ⟨step, hstep⟩ := Option.isSome_iff_exists.1 h
    exact .inr (hasParts_bin hstep)
  | aggregate =>
    obtain ⟨step, hstep⟩ := Option.isSome_iff_exists.1 h
    exact .inr (hasParts_aggregate hstep)
  | layout =>
    obtain ⟨layout, hlayout⟩ := Option.isSome_iff_exists.1 h
    exact .inr (hasParts_layout hlayout)

end Role

/-! ### Children and keys -/

section

variable {names : List String} {ps : List (Option Json)}

/-- An object that has parts repeats no key. -/
theorem nodup_of_parts?_obj {members : List (String × Json)}
    (h : parts? names (.obj members) = some ps) : (members.map Prod.fst).Nodup := by
  unfold parts? at h
  dsimp only at h
  split at h
  · next hkeys =>
    rw [Bool.and_eq_true, allDifferent_iff] at hkeys
    exact hkeys.2
  · cases h

/-- An array that has parts has no other items. -/
theorem length_le_of_parts?_arr {items : List Json} (h : parts? names (.arr items) = some ps) :
    items.length ≤ names.length := by
  unfold parts? at h
  dsimp only at h
  split at h
  · next hlength => exact hlength
  · cases h

theorem eq_of_name?_obj {members : List (String × Json)} {text : String}
    (h : name? (.obj members) = some text) : members = [(text, .null)] := by
  unfold name? at h
  split at h
  · next heq => cases heq
  · next heq =>
    cases h
    cases heq
    rfl
  · cases h

end

namespace Role

variable {role : Role} {value part : Json} {members : List (String × Json)}
  {ps : List (Option Json)} {i : Nat}

/-- In an object the parts stand under their keys. -/
theorem HasParts.takes_lookup (h : role.HasParts (.obj members) ps) :
    ∀ part ∈ role.parts, role.Takes part (members.lookup part.1) := by
  have htakes := h.takes
  rw [eq_of_parts?_obj h.eq_some, keys, List.map_map, List.forall₂_map_right_iff,
    List.forall₂_same] at htakes
  exact htakes

/-- The keys of an object are keys of its role, none of them twice. -/
theorem keys_of_reads (h : role.reads (.obj members) = true) :
    (members.map Prod.fst).Nodup ∧ ∀ key ∈ members.map Prod.fst, key ∈ role.keys := by
  rcases cases_of_reads h with ⟨text, rfl, hname⟩ | ⟨ps, hparts⟩
  · rw [eq_of_name?_obj hname]
    exact ⟨List.nodup_singleton text, fun key hkey => hkey⟩
  · refine ⟨nodup_of_parts?_obj hparts.eq_some, ?_⟩
    intro key hkey
    obtain ⟨member, hmember, rfl⟩ := List.mem_map.1 hkey
    exact mem_of_parts?_obj hparts.eq_some hmember

theorem mem_keys_of_mem_required {key : String} (h : key ∈ role.required) : key ∈ role.keys := by
  revert key
  cases role with
  | name text => exact fun h => h
  | _ => decide

/-- An object has the keys that its role requires. -/
theorem mem_of_mem_required (h : role.reads (.obj members) = true) {key : String}
    (hkey : key ∈ role.required) : key ∈ members.map Prod.fst := by
  rcases cases_of_reads h with ⟨text, rfl, hname⟩ | ⟨ps, hparts⟩
  · rw [eq_of_name?_obj hname]
    exact hkey
  · obtain ⟨part, hpart, rfl⟩ := List.mem_map.1 (mem_keys_of_mem_required hkey)
    have htakes := hparts.takes_lookup part hpart
    rw [← exists_lookup_iff]
    cases hlookup : members.lookup part.1 with
    | some value => exact ⟨value, rfl⟩
    | none =>
      rw [hlookup] at htakes
      cases htakes with
      | missing habsent => exact absurd hkey habsent

/-- What is expected of a child is the form of a part. -/
theorem exists_mem_parts_of_formAt? {inner : Form} (h : role.formAt? value i = some inner) :
    ∃ part ∈ role.parts, part.2 = inner := by
  cases value with
  | obj members =>
    obtain ⟨⟨key, _⟩, -, hlookup⟩ := Option.bind_eq_some_iff.1 h
    exact ⟨(key, inner), mem_of_lookup hlookup, rfl⟩
  | arr items =>
    obtain ⟨part, hpart, rfl⟩ := Option.map_eq_some_iff.1 h
    exact ⟨part, List.mem_of_getElem? hpart, rfl⟩
  | _ => cases h

/-- Every child of what plays a role stands where the role expects something,
    and is admitted there. -/
theorem admits_child (h : role.reads value = true) (hpart : value.child? i = some part) :
    ∃ inner, role.formAt? value i = some inner ∧ inner.Admits part := by
  rcases cases_of_reads h with ⟨text, rfl, hname⟩ | ⟨ps, hparts⟩
  · -- The only child of a name is the null under it.
    cases value with
    | obj members =>
      rw [eq_of_name?_obj hname] at hpart ⊢
      cases i with
      | zero =>
        cases hpart
        exact ⟨.scalar, by simp [formAt?, parts], .scalar rfl⟩
      | succ i => cases hpart
    | arr items => cases hname
    | _ => cases hpart
  · cases value with
    | obj members =>
      -- No key is repeated, so the part under a key is the child beside it.
      obtain ⟨⟨key, _⟩, hmember, rfl⟩ := Option.map_eq_some_iff.1 hpart
      have hkey : key ∈ role.keys :=
        mem_of_parts?_obj hparts.eq_some (List.mem_of_getElem? hmember)
      obtain ⟨inner, hinner⟩ := exists_lookup_iff.2 hkey
      have htakes := hparts.takes_lookup (key, inner) (mem_of_lookup hinner)
      rw [lookup_of_getElem? (nodup_of_parts?_obj hparts.eq_some) hmember] at htakes
      have hform : role.formAt? (.obj members) i = some inner := by
        rw [formAt?, hmember]
        exact hinner
      cases htakes with
      | present hadmits => exact ⟨inner, hform, hadmits⟩
    | arr items =>
      have hitem : items[i]? = some part := hpart
      obtain ⟨hlt, -⟩ := List.getElem?_eq_some_iff.1 hitem
      have hkeys : i < role.keys.length :=
        Nat.lt_of_lt_of_le hlt (length_le_of_parts?_arr hparts.eq_some)
      have hposition : i < role.parts.length := by rwa [keys, List.length_map] at hkeys
      obtain ⟨taken, htaken, htakes⟩ :=
        exists_getElem?_of_forall₂ hparts.takes (List.getElem?_eq_getElem hposition)
      -- What is taken at the position is the item there.
      rw [getElem?_of_parts?_arr hparts.eq_some hkeys, hitem, Option.some.injEq] at htaken
      rw [← htaken] at htakes
      cases htakes with
      | present hadmits =>
        refine ⟨_, ?_, hadmits⟩
        rw [formAt?, List.getElem?_eq_getElem hposition]
        rfl
    | _ => cases hpart

end Role

end PlotGrammar
