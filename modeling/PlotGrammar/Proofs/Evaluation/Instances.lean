import PlotGrammar.Proofs.Evaluation.Groups

/-! # What the instances of a mark are bound to

  A mark looks up the fields of its encoding in its table and takes the cells
  of a row by their positions. It is ready for a missing field, and for a row
  that has no cell at a position. Neither occurs:

  - the channels of the mark were resolved against the same table, so it has
    the fields (`fieldsIn_of_resolve`),
  - the table is rectangular, so every row has the cells
    (`exists_shows_of_bind`).

  So an instance shows for every channel but the grouping one what the encoding
  says of its row (`MarkInstance.Faithful`). `instances_of_compile` says this
  of every scene.
-/

namespace PlotGrammar

/-- A value is what a binding says of a row of a table: the constant, or the
    cell that is there under the field. -/
def Binding.Shows (t : Table) (row : Nat) : Binding → BoundValue → Prop
  | .constant value, bound => bound = .constant value
  | .field name type, bound =>
    ∃ cell flag, t.value? row name = some cell ∧ bound = .field name type cell flag

/-- An instance shows what an encoding says of its row. -/
structure MarkInstance.Faithful (t : Table) (e : ResolvedEncoding) (i : MarkInstance) : Prop where
  /-- Its channels are those of the encoding, without the grouping channel. -/
  binds : ∀ c, (∃ value, i.channels.get? c = some value) ↔
    c ≠ .detail ∧ ∃ b, e.channels.get? c = some b
  /-- Each has the value that the encoding says. -/
  shows : ∀ c b value, e.channels.get? c = some b → i.channels.get? c = some value →
    b.Shows t i.row value

/-! ### Binding -/

section

variable {o : Pipeline.Outcome} {e : ResolvedEncoding} {row : List Cell} {r : Nat}

/-- Binding a field of the table gives the cell of the row under it. -/
theorem exists_shows_of_bind (hrect : o.table.Rectangular) (hrow : o.table.rows[r]? = some row)
    {b : Binding} (h : ∀ name type, b = .field name type → o.table.hasField name = true) :
    ∃ value, b.bind o row = .ok value ∧ b.Shows o.table r value := by
  cases b with
  | constant value => exact ⟨_, rfl, rfl⟩
  | field name type =>
    have hfield := h name type rfl
    obtain ⟨position, hposition⟩ := Table.hasField_iff_exists.1 hfield
    have hcell := Table.value?_eq_some hrect hrow hfield
    rw [Table.cellUnder_of_fieldIndex? hposition] at hcell
    simp only [Binding.bind, hposition]
    exact ⟨_, rfl, _, _, hcell, rfl⟩

/-- What an instance binds comes from the binding of a drawn channel. -/
theorem get?_of_instanceOf {i : MarkInstance} (h : instanceOf o e row r = .ok i) {c : Channel}
    {value : BoundValue} :
    i.channels.get? c = some value ↔
      c ≠ .detail ∧ ∃ b, e.channels.get? c = some b ∧ b.bind o row = .ok value := by
  obtain ⟨channels, hchannels, h⟩ := bind_eq_ok_iff.1 h
  cases h
  rw [ChannelMap.get?_of_mapM hchannels]
  simp only [ChannelMap.get?_filter, Channel.isVisual, bne_iff_ne, and_assoc, exists_and_left]

/-- The instance of a row shows what the encoding says of the row. -/
theorem faithful_of_instanceOf (hrect : o.table.Rectangular) (he : e.FieldsIn o.table)
    (hrow : o.table.rows[r]? = some row) {i : MarkInstance} (h : instanceOf o e row r = .ok i) :
    i.Faithful o.table e := by
  have hindex : i.row = r := by
    obtain ⟨channels, -, h⟩ := bind_eq_ok_iff.1 h
    cases h
    rfl
  have hall : ∀ c b, e.channels.get? c = some b →
      ∃ value, b.bind o row = .ok value ∧ b.Shows o.table r value := by
    intro c b hb
    refine exists_shows_of_bind hrect hrow fun name type hfield => he c name type ?_
    rw [hb, hfield]
  constructor
  · intro c
    constructor
    · rintro ⟨value, hvalue⟩
      obtain ⟨hdetail, b, hb, -⟩ := (get?_of_instanceOf h).1 hvalue
      exact ⟨hdetail, b, hb⟩
    · rintro ⟨hdetail, b, hb⟩
      obtain ⟨value, hbind, -⟩ := hall c b hb
      exact ⟨value, (get?_of_instanceOf h).2 ⟨hdetail, b, hb, hbind⟩⟩
  · intro c b value hb hvalue
    obtain ⟨-, bound, hbound, hbind⟩ := (get?_of_instanceOf h).1 hvalue
    obtain ⟨shown, hshown, hshows⟩ := hall c b hb
    rw [hb, Option.some.injEq] at hbound
    rw [← hbound, hshown, Except.ok.injEq] at hbind
    rw [← hbind, hindex]
    exact hshows

end

/-! ### Leaves -/

/-- Every instance of every leaf of a scene shows what the encoding of the leaf
    says of its row. No mark that evaluating a view comes to lacks a field of
    its encoding, or the cell of a row under one; so its groups can be formed. -/
theorem instances_of_compile {config : Config} {v : View} {t : Table} (ht : t.Made) :
    (∀ scene, compile config v t = .ok scene → ∀ leaf ∈ scene.leaves, ∀ i ∈ leaf.instances,
      i.Faithful leaf.table leaf.encoding) ∧
    ∀ c, Reached config v t c → ∀ head mark, c.view = .mark head mark → ∀ o e,
      prepare config c.table c.inherited head = .ok (o, e) →
        (∃ groups, markGroups o e = .ok groups) ∧
        ∀ channel name type, e.channels.get? channel = some (.field name type) →
          ∃ position, o.table.fieldIndex? name = some position ∧
            ∀ row ∈ o.table.rows, ∃ cell, row[position]? = some cell := by
  constructor
  · intro scene h leaf hleaf i hi
    obtain ⟨c, head, o, hdrawn⟩ := exists_drawnBy h hleaf
    obtain ⟨group, hgroup, hi⟩ := List.mem_flatMap.1 hi
    obtain ⟨row, r, hrow, hinstance⟩ := exists_instanceOf_of_mem hdrawn.groups hgroup hi
    have hrect := (ht.of_mem_leaves h hleaf).rectangular
    have he := fieldsIn_of_resolve hdrawn.resolved
    rw [← hdrawn.table] at hrect he ⊢
    exact faithful_of_instanceOf hrect he hrow hinstance
  · intro c hc head mark _ o e hprepare
    have he := fieldsIn_of_resolve (prepare_eq_ok_iff.1 hprepare).2
    have hrect := ((ht.of_reached hc).of_prepare hprepare).rectangular
    refine ⟨exists_markGroups he, fun channel name type hbound => ?_⟩
    obtain ⟨position, hposition⟩ := Table.hasField_iff_exists.1 (he channel name type hbound)
    refine ⟨position, hposition, fun row hrow => ?_⟩
    exact ⟨_, List.getElem?_eq_getElem (hrect.covers name position hposition row hrow)⟩

/-- A red point for each name. -/
def pointsByName : View :=
  .mark { encoding := { x := some (.field "name" none), color := some (.literal (.text "red"))
                        detail := some (.field "name" none) } } .point

/-- Two columns of one name, of which the first counts. -/
def namesTwice : Table := .ofColumns [("name", [.text "a"]), ("name", [.text "b"])]

/-- The point has the first name and the constant, and does not show what it is
    grouped by. -/
theorem instances_of_compile_of_points :
    ∃ scene leaf i, compile {} pointsByName namesTwice = .ok scene ∧ leaf ∈ scene.leaves ∧
      i ∈ leaf.instances ∧ i.Faithful leaf.table leaf.encoding ∧
      i.channels.get? .x = some (.field "name" .ordinal (.text "a") false) ∧
      i.channels.get? .color = some (.constant (.text "red")) ∧ i.channels.get? .detail = none := by
  obtain ⟨scene, leaf, i, hscene, hleaf, hi, hx, hcolor, hdetail⟩ :
      ∃ scene leaf i, compile {} pointsByName namesTwice = .ok scene ∧ leaf ∈ scene.leaves ∧
        i ∈ leaf.instances ∧
        i.channels.get? .x = some (.field "name" .ordinal (.text "a") false) ∧
        i.channels.get? .color = some (.constant (.text "red")) ∧ i.channels.get? .detail = none :=
    ⟨_, _, _, rfl, List.mem_singleton.2 rfl, List.mem_singleton.2 rfl, rfl, rfl, rfl⟩
  have hfaithful := (instances_of_compile (.ofColumns _)).1 scene hscene leaf hleaf i hi
  exact ⟨scene, leaf, i, hscene, hleaf, hi, hfaithful, hx, hcolor, hdetail⟩

end PlotGrammar
