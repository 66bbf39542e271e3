import PlotGrammar.Proofs.View.Grammar
import PlotGrammar.Proofs.View.Rewriting

/-! # Strict reading

  Nothing in an accepted text is ignored. Every object inside of it, however
  deep, plays a role of the grammar, and its keys are keys of that role, none
  of them twice. A text with one more member in any of its objects is refused,
  if the key of the member is not one of the role or is there already
  (`View.isStrict_of_read`).

  The object itself cannot play its role any longer. That no other alternative
  takes it instead is where the grammar comes in.

  - An object with one more member keeps the keys that its role requires, and
    one of them is unknown to every other role of the same place
    (`Form.exists_required`).
  - Around it, the same part is still refused in the place it stands in. If
    the whole would play another role now, that place would expect a scalar
    (`Form.scalar_or_scalar`).
  - Only a body may be read by a role or as a list. A view and an array of
    views start differently, by the arrays that open before anything else, and
    a member more does not change that (`not_view_of_leading_eq`).
-/

namespace PlotGrammar

/-! ### How views and arrays of views start -/

namespace View

/-- An array that is a view starts with its steps: with two arrays, or with a
    third one that is a step and starts with a string. -/
theorem leading_of_fromJson? {items : List Json} {v : View} (h : fromJson? (.arr items) = some v) :
    (Json.arr items).leading = (2, false) ∨ (Json.arr items).leading = (3, true) := by
  obtain ⟨node, hnode⟩ := exists_node_of_ofJson? h
  obtain ⟨steps, hfirst, hsteps⟩ := exists_steps_of_headAndBody? hnode
  obtain ⟨rest, rfl⟩ : ∃ rest, items = .arr steps :: rest := by
    cases items with
    | nil => cases hfirst
    | cons item rest =>
      cases hfirst
      exact ⟨rest, rfl⟩
  -- What follows the two arrays is the first step, if there is one.
  cases steps with
  | nil => exact .inl rfl
  | cons item steps =>
    obtain ⟨step, hstep⟩ := hsteps item List.mem_cons_self
    cases item with
    | obj members => exact .inl rfl
    | arr parts =>
      obtain ⟨text, htext⟩ := Step.exists_str_of_ofJson? hstep
      cases parts with
      | nil => cases htext
      | cons part parts =>
        cases htext
        exact .inr rfl
    | _ => exact absurd (Step.depth_pos_of_ofJson? hstep) (Nat.lt_irrefl 0)

/-- No view starts as an array of views does. -/
theorem not_view_of_leading_eq {items items' : List Json}
    (hviews : ∀ item ∈ items, ∃ v, fromJson? item = some v)
    (hleading : (Json.arr items').leading = (Json.arr items).leading) (v : View) :
    fromJson? (.arr items') ≠ some v := by
  intro hview
  have hstart := leading_of_fromJson? hview
  rw [hleading] at hstart
  -- The array of views opens one array more than its first view does.
  cases items with
  | nil =>
    revert hstart
    decide
  | cons item items =>
    obtain ⟨w, hw⟩ := hviews item List.mem_cons_self
    rw [Json.leading, Json.leadingOfItems] at hstart
    cases item with
    | obj members =>
      rw [Json.leading_obj] at hstart
      revert hstart
      decide
    | arr parts =>
      rcases leading_of_fromJson? hw with hparts | hparts
      · rw [hparts] at hstart
        revert hstart
        decide
      · rw [hparts] at hstart
        revert hstart
        decide
    | _ =>
      obtain ⟨node, hnode⟩ := exists_node_of_ofJson? hw
      obtain ⟨steps, encoding, hps, -⟩ := parts_of_headAndBody? hnode
      exact absurd (depth_pos_of_parts? hps) (Nat.lt_irrefl 0)

end View

/-! ### Every object plays a role -/

namespace Form

variable {form inner : Form} {role : Role} {value part : Json} {members : List (String × Json)}
  {location : List Nat} {i : Nat}

theorem mem_and_reads_of_role? (h : form.role? value = some role) :
    role ∈ form.roles ∧ role.reads value = true := by
  have hreads := List.find?_some h
  exact ⟨List.mem_of_find?_eq_some h, hreads⟩

/-- What can play a role of a form plays one. -/
theorem exists_role? (hrole : role ∈ form.roles) (h : role.reads value = true) :
    ∃ found, form.role? value = some found := by
  rw [← Option.isSome_iff_exists, role?, List.find?_isSome]
  exact ⟨role, hrole, h⟩

theorem childForm?_of_role? (h : form.role? value = some role) (i : Nat) :
    form.childForm? value i = role.formAt? value i := by
  rw [childForm?, h]

theorem childForm?_of_none (h : form.role? value = none) (i : Nat) :
    form.childForm? value i = form.itemForm? := by
  rw [childForm?, h]

/-- What has children and plays no role is a list. -/
theorem Admits.exists_items (h : form.Admits value) (hpart : value.child? i = some part)
    (hnone : form.role? value = none) :
    ∃ items inner, value = .arr items ∧ form.itemForm? = some inner ∧
      ∀ item ∈ items, ∃ role ∈ inner.roles, role.reads item = true := by
  cases h with
  | scalar hdepth =>
    have hpos := Json.depth_pos_of_child? hpart
    omega
  | role played hmem hreads =>
    obtain ⟨found, hfound⟩ := exists_role? hmem hreads
    rw [hnone] at hfound
    cases hfound
  | @items inner items hinner hitems => exact ⟨items, inner, rfl, hinner, hitems⟩

/-- A child of what is admitted is admitted where it stands. -/
theorem Admits.exists_childForm? (h : form.Admits value) (hpart : value.child? i = some part) :
    ∃ inner, form.childForm? value i = some inner ∧ inner.Admits part := by
  cases hrole : form.role? value with
  | some role =>
    rw [childForm?_of_role? hrole]
    exact Role.admits_child (mem_and_reads_of_role? hrole).2 hpart
  | none =>
    rw [childForm?_of_none hrole]
    obtain ⟨items, inner, rfl, hinner, hitems⟩ := h.exists_items hpart hrole
    obtain ⟨role, hmem, hreads⟩ := hitems part (List.mem_of_getElem? hpart)
    exact ⟨inner, hinner, .role role hmem hreads⟩

/-- Every object inside of what is admitted plays a role. -/
theorem exists_roleAt? (h : form.Admits value) (hat : value.at? location = some (.obj members)) :
    ∃ role, form.roleAt? value location = some role ∧ role.reads (.obj members) = true := by
  -- By induction on the location: each child has a form of its own.
  induction location generalizing form value with
  | nil =>
    cases hat
    cases h with
    | scalar hdepth => cases hdepth
    | role played hmem hreads =>
      obtain ⟨found, hfound⟩ := exists_role? hmem hreads
      exact ⟨found, hfound, (mem_and_reads_of_role? hfound).2⟩
  | cons i rest ih =>
    obtain ⟨part, hpart, hrest⟩ := Option.bind_eq_some_iff.1 hat
    obtain ⟨inner, hinner, hadmits⟩ := h.exists_childForm? hpart
    obtain ⟨role, hrole, hreads⟩ := ih hadmits hrest
    refine ⟨role, ?_, hreads⟩
    rw [roleAt?, hinner, Option.bind_some, hpart, Option.bind_some, hrole]

/-! ### One more member -/

/-- Nothing plays a role inside of a scalar. -/
theorem roleAt?_scalar (value : Json) (location : List Nat) :
    Form.scalar.roleAt? value location = none := by
  cases location with
  | nil => rfl
  | cons i rest => rfl

theorem not_admits_scalar (h : 0 < value.depth) : ¬ Form.scalar.Admits value := by
  intro hadmits
  cases hadmits with
  | scalar hdepth => omega
  | role role hmem => cases hmem
  | items inner hinner => cases hinner

/-- What a role expects of the children depends on the keys only. -/
theorem formAt?_setChild (role : Role) (value part : Json) (i : Nat) :
    role.formAt? (value.setChild i part) i = role.formAt? value i := by
  cases value with
  | obj members =>
    rw [Json.setChild, Role.formAt?, Role.formAt?, List.getElem?_modify_eq]
    cases members[i]? with
    | none => rfl
    | some member => rfl
  | _ => rfl

/-- The object that takes the member plays none of the roles of its place. -/
theorem not_reads_insertIdx {member : String × Json} {position : Nat} {other : Role}
    (hrole : role ∈ form.roles) (hreads : role.reads (.obj members) = true)
    (hother : other ∈ form.roles) (hposition : position ≤ members.length)
    (hbad : member.1 ∉ role.keys ∨ member.1 ∈ members.map Prod.fst) :
    other.reads (.obj (members.insertIdx position member)) = false := by
  rw [← Bool.not_eq_true]
  intro hreads'
  have hperm : ((members.insertIdx position member).map Prod.fst).Perm
      (member.1 :: members.map Prod.fst) := (List.perm_insertIdx member members hposition).map _
  obtain ⟨hnodup, hkeys⟩ := Role.keys_of_reads hreads'
  by_cases heq : role = other
  · subst heq
    rcases hbad with hunknown | hrepeated
    · exact hunknown (hkeys _ (hperm.mem_iff.2 List.mem_cons_self))
    · exact (List.nodup_cons.1 (hperm.nodup_iff.1 hnodup)).1 hrepeated
  · -- A key that the role requires is still there, and the other has no such key.
    obtain ⟨key, hrequired, hunknown⟩ := form.exists_required role hrole other hother heq
    have hkey := Role.mem_of_mem_required hreads hrequired
    exact hunknown (hkeys _ (hperm.mem_iff.2 (List.mem_cons_of_mem _ hkey)))

/-- No role of a form reads what starts as a list of the form does. -/
theorem not_reads_of_items {items items' : List Json} (hinner : form.itemForm? = some inner)
    (hitems : ∀ item ∈ items, ∃ role ∈ inner.roles, role.reads item = true)
    (hleading : (Json.arr items').leading = (Json.arr items).leading) (hrole : role ∈ form.roles) :
    role.reads (.arr items') = false := by
  rw [← Bool.not_eq_true]
  intro hreads
  cases form with
  | steps => cases hrole
  | body =>
    cases hinner
    rcases List.mem_cons.1 hrole with rfl | hname
    · obtain ⟨v, hv⟩ := Option.isSome_iff_exists.1 hreads
      have hviews : ∀ item ∈ items, ∃ w, View.fromJson? item = some w := by
        intro item hitem
        obtain ⟨role, hmem, hitem⟩ := hitems item hitem
        rw [List.mem_singleton.1 hmem] at hitem
        exact Option.isSome_iff_exists.1 hitem
      exact View.not_view_of_leading_eq hviews hleading v hv
    · -- No array is a name.
      obtain ⟨kind, -, rfl⟩ := List.mem_map.1 hname
      cases eq_of_beq hreads
  | _ => cases hinner

/-- What comes in place of a part, if a member is written into it that must not
    be there. -/
structure Spoils (form : Form) (part part' : Json) : Prop where
  not_admits : ¬ form.Admits part'
  depth_pos : 0 < part'.depth
  leading_eq : part'.leading = part.leading

/-- The whole then plays no role of its place any more, if it played one. -/
theorem Spoils.not_reads_setChild {part' : Json} {other : Role} (h : inner.Spoils part part')
    (hrole : role ∈ form.roles) (hinner : role.formAt? value i = some inner)
    (hscalar : inner ≠ .scalar) (hpart : value.child? i = some part) (hother : other ∈ form.roles) :
    other.reads (value.setChild i part') = false := by
  rw [← Bool.not_eq_true]
  intro hreads
  obtain ⟨inner', hinner', hadmits⟩ := Role.admits_child hreads (Json.child?_setChild hpart)
  rw [formAt?_setChild] at hinner'
  by_cases heq : role = other
  · -- The role still expects of the part what the part is not.
    rw [← heq, hinner, Option.some.injEq] at hinner'
    rw [← hinner'] at hadmits
    exact h.not_admits hadmits
  · -- One of the two expects scalars only, but the part is none.
    obtain ⟨known, hknown, rfl⟩ := Role.exists_mem_parts_of_formAt? hinner
    obtain ⟨known', hknown', rfl⟩ := Role.exists_mem_parts_of_formAt? hinner'
    rcases form.scalar_or_scalar role hrole other hother heq with hall | hall
    · exact hscalar (hall known hknown)
    · rw [hall known' hknown'] at hadmits
      exact not_admits_scalar h.depth_pos hadmits

/-- If a part comes to be refused in its place, the whole is refused in its own. -/
theorem Spoils.not_admits_setChild {part' : Json} (h : inner.Spoils part part')
    (hvalue : form.Admits value) (hinner : form.childForm? value i = some inner)
    (hscalar : inner ≠ .scalar) (hpart : value.child? i = some part) :
    ¬ form.Admits (value.setChild i part') := by
  have hchild : (value.setChild i part').child? i = some part' := Json.child?_setChild hpart
  have hdepth := Json.depth_pos_of_child? hchild
  -- An array still starts as before.
  have hleading : ∀ items, value = .arr items →
      (Json.arr (items.set i part')).leading = (Json.arr items).leading := by
    intro items heq
    rw [heq] at hpart
    exact Json.leading_arr_set hpart h.leading_eq
  intro hadmits
  cases hrole : form.role? value with
  | some role =>
    obtain ⟨hmem, hreads⟩ := mem_and_reads_of_role? hrole
    rw [childForm?_of_role? hrole] at hinner
    generalize hset : value.setChild i part' = value' at hadmits hdepth
    cases hadmits with
    | scalar hzero => omega
    | role other hother hreads' =>
      rw [← hset, h.not_reads_setChild hmem hinner hscalar hpart hother] at hreads'
      cases hreads'
    | items listed hlisted hitems =>
      -- Before, the array played a role, so it starts unlike any list.
      cases value with
      | arr items =>
        cases hset
        rw [not_reads_of_items hlisted hitems (hleading items rfl).symm hmem] at hreads
        cases hreads
      | _ => cases hset
  | none =>
    rw [childForm?_of_none hrole] at hinner
    obtain ⟨items, listed, rfl, hlisted, hitems⟩ := hvalue.exists_items hpart hrole
    -- The list still starts as a list, and has the refused part as an item.
    rw [Json.setChild] at hadmits hchild
    cases hadmits with
    | scalar hzero => cases hzero
    | role other hother hreads =>
      rw [not_reads_of_items hlisted hitems (hleading items rfl) hother] at hreads
      cases hreads
    | items listed' hlisted' hitems' =>
      rw [hinner, Option.some.injEq] at hlisted'
      obtain ⟨role, hmem, hreads⟩ := hitems' part' (List.mem_of_getElem? hchild)
      rw [← hlisted'] at hmem
      exact h.not_admits (.role role hmem hreads)

/-- If a member is written into an object whose role does not know its key, or
    that has the key already, the whole is not admitted any more. -/
theorem not_admits_withMember {member : String × Json} {position : Nat}
    (hvalue : form.Admits value) (hrole : form.roleAt? value location = some role)
    (hat : value.at? location = some (.obj members)) (hposition : position ≤ members.length)
    (hbad : member.1 ∉ role.keys ∨ member.1 ∈ members.map Prod.fst) :
    ¬ form.Admits (value.withMember member position location) := by
  induction location generalizing form value with
  | nil =>
    cases hat
    obtain ⟨hmem, hreads⟩ := mem_and_reads_of_role? hrole
    rw [Json.withMember]
    intro hadmits
    cases hadmits with
    | scalar hdepth => cases hdepth
    | role other hother hreads' =>
      rw [not_reads_insertIdx hmem hreads hother hposition hbad] at hreads'
      cases hreads'
  | cons i rest ih =>
    obtain ⟨part, hpart, hrest⟩ := Option.bind_eq_some_iff.1 hat
    obtain ⟨inner, hinner, hadmits⟩ := hvalue.exists_childForm? hpart
    rw [roleAt?, hinner, Option.bind_some, hpart, Option.bind_some] at hrole
    have hscalar : inner ≠ .scalar := by
      intro heq
      rw [heq, roleAt?_scalar] at hrole
      cases hrole
    have hspoils : inner.Spoils part (part.withMember member position rest) :=
      ⟨ih hadmits hrole hrest, Json.depth_pos_withMember hrest member position,
        Json.leading_withMember member position part rest⟩
    rw [Json.withMember_cons hpart]
    exact hspoils.not_admits_setChild hvalue hinner hscalar hpart

end Form

/-! ### Accepted texts -/

namespace View

/-- An object with some members stands at a location of a value and plays a
    role there, and the reader of texts is strict about its keys. -/
structure IsStrictAt (codec : Json.Codec) (value : Json) (location : List Nat) (members : List (String × Json))
    (role : Role) : Prop where
  /-- All keys are keys of the role. -/
  mem_keys : ∀ key ∈ members.map Prod.fst, key ∈ role.keys
  /-- No key is repeated. -/
  nodup : (members.map Prod.fst).Nodup
  /-- A text is refused, if its value, as far as it has one, has one more
      member in the object, with another key or with one of the keys again. -/
  refused : ∀ (member : String × Json) (position : Nat), position ≤ members.length →
    member.1 ∉ role.keys ∨ member.1 ∈ members.map Prod.fst →
      ∀ text, (∀ j, codec.read? text = some j →
        j = value.withMember member position location) →
          read codec text = .error (.invalidSpec .root .unreadable)

variable {codec : Json.Codec}

/-- What is no view is refused at the root. -/
theorem read_eq_unreadable {text : String}
    (h : ∀ j, codec.read? text = some j → fromJson? j = none) :
    read codec text = .error (.invalidSpec .root .unreadable) := by
  have hnone : (codec.read? text).bind fromJson? = none := by
    rw [Option.bind_eq_none_iff]
    exact h
  rw [read, hnone]

/-- The reader is strict at every depth. In the value of an accepted text every
    object plays a role of the grammar, with keys of the role only and none of
    them twice. With a further member of any other key, or of one of its keys
    again, the text is refused. -/
theorem isStrict_of_read {text : String} {v : View} (h : read codec text = .ok v) :
    ∃ value, codec.read? text = some value ∧
      ∀ location members, value.at? location = some (.obj members) →
        ∃ role, Form.view.roleAt? value location = some role ∧
          IsStrictAt codec value location members role := by
  obtain ⟨⟨value, hvalue, hview⟩, -⟩ := read_eq_ok_iff.1 h
  have hadmits : Form.view.Admits value :=
    .role .view (by decide) (Option.isSome_iff_exists.2 ⟨v, hview⟩)
  refine ⟨value, hvalue, ?_⟩
  intro location members hat
  obtain ⟨role, hrole, hreads⟩ := Form.exists_roleAt? hadmits hat
  obtain ⟨hnodup, hkeys⟩ := Role.keys_of_reads hreads
  refine ⟨role, hrole, hkeys, hnodup, ?_⟩
  intro member position hposition hbad text' hvalue'
  apply read_eq_unreadable
  intro j hj
  rw [hvalue' j hj, Option.eq_none_iff_forall_ne_some]
  intro w hw
  have hnot := Form.not_admits_withMember hadmits hrole hat hposition hbad
  exact hnot (.role .view (by decide) (Option.isSome_iff_exists.2 ⟨w, hw⟩))

/-- Bars over a table that a single step derives. -/
def barsOf (step : List (String × Json)) : Json :=
  .obj [("transform", .arr [.obj step]), ("view", .str "bar"), ("encoding", .obj [])]

/-- The members of a step that counts. -/
def countMembers : List (String × Json) := [("aggregate", .str "count"), ("as", .str "n")]

/-- An aggregate with a key of a bin is not taken for either. -/
theorem isStrict_of_read_of_counts :
    read .compact (barsOf countMembers).text =
        .ok (.mark ⟨[.aggregate ⟨"count", none, "n"⟩], {}⟩ .bar) ∧
      Form.view.roleAt? (barsOf countMembers) [0, 0] = some .aggregate ∧
      read .compact (barsOf (countMembers ++ [("bin", .str "n")])).text =
        .error (.invalidSpec .root .unreadable) := by
  have htext : ∀ step : List (String × Json), (∀ member ∈ step, member.2.IsWritable) →
      Json.Codec.compact.read? (barsOf step).text =
        if (barsOf step).depth ≤ 127 then some (barsOf step) else none := by
    intro step hstep
    have hsteps : (Json.arr [.obj step]).IsWritable :=
      .arr (List.forall_mem_singleton.2 (.obj hstep))
    have hencoding : (Json.obj []).IsWritable := .obj (List.forall_mem_nil _)
    have hbars : (barsOf step).IsWritable := .obj (List.forall_mem_cons.2
      ⟨hsteps, List.forall_mem_cons.2 ⟨.str "bar", List.forall_mem_singleton.2 hencoding⟩⟩)
    exact Json.Codec.read?_write_compact hbars
  have hcount : ∀ member ∈ countMembers, member.2.IsWritable :=
    List.forall_mem_cons.2 ⟨.str "count", List.forall_mem_singleton.2 (.str "n")⟩
  have hread : read .compact (barsOf countMembers).text =
      .ok (.mark ⟨[.aggregate ⟨"count", none, "n"⟩], {}⟩ .bar) :=
    read_eq_ok_iff.2 ⟨⟨barsOf countMembers, htext countMembers hcount, rfl⟩, rfl⟩
  have hrole : Form.view.roleAt? (barsOf countMembers) [0, 0] = some .aggregate := rfl
  refine ⟨hread, hrole, ?_⟩
  obtain ⟨value, hvalue, hstrict⟩ := isStrict_of_read hread
  obtain rfl : barsOf countMembers = value :=
    Option.some.inj ((htext countMembers hcount).symm.trans hvalue)
  obtain ⟨role, hplays, hobject⟩ := hstrict [0, 0] countMembers rfl
  obtain rfl : Role.aggregate = role := Option.some.inj (hrole.symm.trans hplays)
  -- The stray key stands behind the others.
  refine hobject.refused ("bin", .str "n") 2 (by decide) (.inl (by decide)) _ ?_
  intro j hj
  rw [htext _ (List.forall_mem_append.2 ⟨hcount, List.forall_mem_singleton.2 (.str "n")⟩)] at hj
  exact (Option.some.inj hj).symm

/-- The objects of the array all play roles, also those that stand for names. -/
example :
    Form.view.roleAt? gridInArray [1] = some (.name "bar") ∧
      Form.view.roleAt? gridInArray [2] = some .encoding ∧
      Form.view.roleAt? gridInArray [2, 0] = some (.name "wrap") :=
  ⟨rfl, rfl, rfl⟩

end View

end PlotGrammar
