import PlotGrammar.Proofs.Resolution

/-! # The order of resolving

  Channels are resolved in channel order. So if there is a field that the table
  does not have, it is the one of the lowest such channel that is reported
  (`resolves_resolve`), and the channels below it have been resolved before
  (`ChannelMap.mem_before_iff`).
-/

namespace PlotGrammar

/-! ### Channel order -/

/-- A channel comes before another in channel order. -/
def Channel.Precedes (c c' : Channel) : Prop := Channel.all.idxOf c < Channel.all.idxOf c'

instance (c c' : Channel) : Decidable (c.Precedes c') := inferInstanceAs (Decidable (_ < _))

theorem Channel.pairwise_all : Channel.all.Pairwise Channel.Precedes := by decide

/-- Of two channels one comes before the other, unless they are the same. -/
theorem Channel.precedes_or_eq_or_precedes (c c' : Channel) :
    c.Precedes c' ∨ c = c' ∨ c'.Precedes c := by
  rcases Nat.lt_trichotomy (all.idxOf c) (all.idxOf c') with hlt | heq | hgt
  · exact .inl hlt
  · exact .inr (.inl ((List.idxOf_inj (mem_all c)).1 heq))
  · exact .inr (.inr hgt)

namespace ChannelMap

variable {α β ε : Type} {m : ChannelMap α}

/-- The bound channels are listed in channel order. -/
theorem pairwise_toList (m : ChannelMap α) :
    m.toList.Pairwise fun b b' => b.1.Precedes b'.1 := by
  refine Channel.pairwise_all.filterMap _ ?_
  intro c c' hprecedes b hb b' hb'
  obtain ⟨a, -, rfl⟩ := Option.map_eq_some_iff.1 hb
  obtain ⟨a', -, rfl⟩ := Option.map_eq_some_iff.1 hb'
  exact hprecedes

/-- What is listed before a channel is what is bound to the channels before it. -/
theorem mem_before_iff {before after : List (Channel × α)} {c : Channel} {a : α}
    (h : m.toList = before ++ (c, a) :: after) {c' : Channel} {a' : α} :
    (c', a') ∈ before ↔ c'.Precedes c ∧ m.get? c' = some a' := by
  have hpairwise := m.pairwise_toList
  rw [h, List.pairwise_append] at hpairwise
  obtain ⟨-, hrest, hbefore⟩ := hpairwise
  rw [← mem_toList, h, List.mem_append, List.mem_cons]
  constructor
  · intro hmem
    exact ⟨hbefore _ hmem _ List.mem_cons_self, .inl hmem⟩
  · intro ⟨hprecedes, hmem⟩
    rcases hmem with hmem | heq | hmem
    · exact hmem
    · -- No channel comes before itself.
      rw [(Prod.mk.inj heq).1] at hprecedes
      exact absurd hprecedes (Nat.lt_irrefl _)
    · have hafter : c.Precedes c' := (List.pairwise_cons.1 hrest).1 _ hmem
      exact absurd hprecedes (Nat.lt_asymm hafter)

/-- If mapping a channel map fails, it does so at the lowest channel at which
    the function does. -/
theorem exists_lowest_of_mapM_eq_error {f : α → Except ε β} {e : ε} (h : m.mapM f = .error e) :
    ∃ c a, m.get? c = some a ∧ f a = .error e ∧
      ∀ c' a', c'.Precedes c → m.get? c' = some a' → ∃ b, f a' = .ok b := by
  obtain ⟨before, ⟨c, a⟩, after, hlist, hfail, hbefore⟩ :=
    exists_first_of_mapM_eq_error (of_bind_ok_eq_error h)
  refine ⟨c, a, mem_toList.1 (by simp [hlist]), of_bind_ok_eq_error hfail, ?_⟩
  intro c' a' hprecedes hbound
  obtain ⟨b, hb⟩ := hbefore _ ((mem_before_iff hlist).2 ⟨hprecedes, hbound⟩)
  obtain ⟨b', hb', -⟩ := bind_eq_ok_iff.1 hb
  exact ⟨b', hb'⟩

end ChannelMap

/-! ### Definitions -/

/-- A table has the field that a definition refers to, if it refers to one. -/
def Definition.IsFoundIn (table : Table) (d : Definition) : Prop :=
  ∀ name, d.fieldName? = some name → table.hasField name = true

/-- Cells of a numeric domain: a number is among them, and nothing but numbers
    and nulls. -/
def IsNumeric (cells : List Cell) : Prop :=
  (∃ x, .num x ∈ cells) ∧ ∀ cell ∈ cells, cell = .null ∨ ∃ x, cell = .num x

theorem typeOfCells_eq_quantitative_iff {cells : List Cell} :
    typeOfCells cells = .quantitative ↔ IsNumeric cells := by
  have hnumber : ∀ cell : Cell, cell.float?.isSome = true ↔ ∃ x, cell = .num x := by
    intro cell
    cases cell <;> simp [Cell.float?]
  have hnull : ∀ cell : Cell, cell.isNull = true ↔ cell = .null := by
    intro cell
    cases cell <;> simp [Cell.isNull]
  unfold typeOfCells IsNumeric
  rw [ite_eq_left_iff]
  simp only [reduceCtorEq, imp_false, not_not, Bool.and_eq_true, List.any_eq_true,
    List.all_eq_true, Bool.or_eq_true, hnumber, hnull]
  constructor
  · rintro ⟨⟨cell, hmem, x, rfl⟩, hall⟩
    exact ⟨⟨x, hmem⟩, fun cell hmem => (hall cell hmem).symm⟩
  · rintro ⟨⟨x, hmem⟩, hall⟩
    exact ⟨⟨_, hmem, x, rfl⟩, fun cell hmem => (hall cell hmem).symm⟩

/-- What a definition is bound to over a table. -/
inductive Definition.Binds (table : Table) : Definition → Binding → Prop
  /-- A constant is what it is. -/
  | literal (value : Cell) : Binds table (.literal value) (.constant value)
  /-- A declared type counts. -/
  | declared {name : String} (type : FieldType) (h : table.hasField name = true) :
    Binds table (.field name (some type)) (.field name type)
  /-- A column of numbers is quantitative. -/
  | numeric {name : String} {cells : List Cell} (h : table.column? name = some cells)
    (hnumeric : IsNumeric cells) : Binds table (.field name none) (.field name .quantitative)
  /-- Any other column is ordinal. -/
  | other {name : String} {cells : List Cell} (h : table.column? name = some cells)
    (hother : ¬ IsNumeric cells) : Binds table (.field name none) (.field name .ordinal)

namespace Definition

variable {table : Table} {d : Definition}

/-- A definition resolves to what it is bound to. -/
theorem binds_bindingOver (h : d.IsFoundIn table) : d.Binds table (d.bindingOver table) := by
  cases d with
  | literal value => exact .literal value
  | field name type =>
    have hfield : table.hasField name = true := h name rfl
    cases type with
    | some type => exact .declared type hfield
    | none =>
      cases hcells : table.column? name with
      | none =>
        rw [Table.column?_eq_none_iff, hfield] at hcells
        cases hcells
      | some cells =>
        show Binds table _ (.field name (table.inferType name))
        have htype : table.inferType name = typeOfCells cells := by
          rw [Table.inferType, hcells]
        rw [htype]
        by_cases hnumeric : IsNumeric cells
        · rw [typeOfCells_eq_quantitative_iff.2 hnumeric]
          exact .numeric hcells hnumeric
        · cases hof : typeOfCells cells with
          | quantitative => exact absurd (typeOfCells_eq_quantitative_iff.1 hof) hnumeric
          | ordinal => exact .other hcells hnumeric

/-- A definition fails exactly if its field is missing. -/
theorem resolve_eq_error_iff {failure : Failure} :
    d.resolve table = .error failure ↔
      ∃ name, d.fieldName? = some name ∧ table.hasField name = false ∧
        failure = .unknownField .root name := by
  cases d with
  | literal value => simp [resolve, fieldName?]
  | field name type =>
    by_cases hfield : table.hasField name = true
    · simp [resolve, fieldName?, hfield]
    · rw [resolve, if_neg hfield, Except.error.injEq, eq_comm]
      simp [fieldName?, hfield]

/-- What resolving a definition is to give: its binding, or the field that is
    missing. -/
def Resolves (table : Table) (d : Definition) (result : Except Failure Binding) : Prop :=
  match result with
  | .ok b => d.Binds table b
  | .error failure => ∃ name, d.fieldName? = some name ∧ table.hasField name = false ∧
      failure = .unknownField .root name

theorem resolves_resolve (table : Table) (d : Definition) : d.Resolves table (d.resolve table) := by
  cases hresult : d.resolve table with
  | error failure => exact resolve_eq_error_iff.1 hresult
  | ok b =>
    obtain ⟨hfound, hb⟩ := resolve_eq_ok_iff.1 hresult
    rw [hb]
    exact binds_bindingOver hfound

end Definition

/-! ### Nodes -/

/-- What resolving channels is to give. -/
structure Resolves (table : Table) (inherited : Channels) (own : Encoding)
    (result : Except Failure ResolvedEncoding) : Prop where
  /-- It succeeds exactly if the table has every field. -/
  succeeds_iff : (∃ e, result = .ok e) ↔
    ∀ c d, (inherit inherited own).get? c = some d → d.IsFoundIn table
  /-- The same channels are bound, and the controls are those of the node. -/
  bound : ∀ e, result = .ok e → e.coordinates = own.coordinates.getD .cartesian ∧
    e.layout = own.layout ∧
    ∀ c, Option.Rel (Definition.Binds table) ((inherit inherited own).get? c) (e.channels.get? c)
  /-- The missing field of the lowest channel that has one is reported. -/
  missing : ∀ failure, result = .error failure →
    ∃ c name type, (inherit inherited own).get? c = some (.field name type) ∧
      table.hasField name = false ∧ failure = .unknownField .root name ∧
      ∀ c' d, c'.Precedes c → (inherit inherited own).get? c' = some d → d.IsFoundIn table

theorem resolves_resolve (table : Table) (inherited : Channels) (own : Encoding) :
    Resolves table inherited own (resolve table inherited own) := by
  constructor
  case succeeds_iff =>
    rw [exists_resolve_iff]
    constructor
    · intro h c d hd name hname
      exact h c d name hd hname
    · intro h c d name hd hname
      exact h c d hd name hname
  case bound =>
    intro e he
    refine ⟨coordinates_of_resolve he, (channels_of_resolve he).2, ?_⟩
    intro c
    rw [get?_of_resolve he]
    have hfound := exists_resolve_iff.1 ⟨e, he⟩ c
    cases hd : (inherit inherited own).get? c with
    | none => exact .none
    | some d => exact .some (Definition.binds_bindingOver fun name hname => hfound d name hd hname)
  case missing =>
    intro failure hfailure
    obtain ⟨c, d, hd, hfail, hbefore⟩ :=
      ChannelMap.exists_lowest_of_mapM_eq_error (of_bind_ok_eq_error hfailure)
    obtain ⟨name, hname, hmissing, hfailure⟩ := Definition.resolve_eq_error_iff.1 hfail
    cases d with
    | literal value => cases hname
    | field _ type =>
      cases hname
      refine ⟨c, name, type, hd, hmissing, hfailure, ?_⟩
      intro c' d' hprecedes hd'
      obtain ⟨b, hb⟩ := hbefore c' d' hprecedes hd'
      exact (Definition.resolve_eq_ok_iff.1 hb).1

end PlotGrammar
