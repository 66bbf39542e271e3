import PlotGrammar.Proofs.Resolution
import PlotGrammar.Proofs.View.Kept

/-! # Resolving twice

  A resolved encoding is written back as an encoding that has every type
  (`ResolvedEncoding.toEncoding`). Its slots are filled one by one, and
  reading them gives the channels that were filled in (`channels_ofChannels`).
  As no type is left to infer, resolving it again gives the same over any table
  that has the fields, whatever its cells (`resolve_toEncoding`).
-/

namespace PlotGrammar

/-! ### Filling slots -/

namespace Encoding

theorem get?_insert (e : Encoding) (c : Channel) (d : Definition) (c' : Channel) :
    (e.insert c d).get? c' = if c' = c then some d else e.get? c' := by
  cases c <;> cases c' <;> rfl

/-- Filling the slots of some channels with what a map binds to them. -/
theorem get?_foldl_insert {m : Channels} (channels : List Channel) (e : Encoding) (c : Channel) :
    ((channels.filterMap fun c => (m.get? c).map fun d => (c, d)).foldl
        (fun e b => e.insert b.1 b.2) e).get? c =
      if c ∈ channels then (m.get? c).or (e.get? c) else e.get? c := by
  induction channels generalizing e with
  | nil => simp
  | cons c' channels ih =>
    cases hd : m.get? c' with
    | none =>
      -- An unbound channel leaves its slot as it is.
      rw [List.filterMap_cons_none (by rw [hd]; rfl), ih]
      by_cases hc : c = c'
      · subst hc
        simp [hd]
      · simp [hc]
    | some d =>
      rw [List.filterMap_cons_some (by rw [hd]; rfl), List.foldl_cons, ih, get?_insert]
      by_cases hc : c = c'
      · subst hc
        simp [hd]
      · simp [hc]

/-- The slots of a channel map hold the channel map. -/
theorem channels_ofChannels (m : Channels) : (ofChannels m).channels = m := by
  ext c : 2
  have hslots := get?_foldl_insert (m := m) Channel.all {} c
  have hempty : ({} : Encoding).get? c = none := by
    cases c <;> rfl
  rw [if_pos (Channel.mem_all c), hempty, Option.or_none] at hslots
  exact hslots

end Encoding

/-! ### Filling in types -/

/-- A definition whose type, where it is missing, is that of the column. -/
def Definition.typedOver (table : Table) : Definition → Definition
  | .field name none => .field name (some (table.inferType name))
  | d => d

/-- A binding says what its definition says with the type filled in. -/
theorem Definition.definition_bindingOver (table : Table) (d : Definition) :
    (d.bindingOver table).definition = d.typedOver table := by
  cases d with
  | literal value => rfl
  | field name type => cases type <;> rfl

/-- A binding is the binding of its definition over any table. -/
theorem Binding.bindingOver_definition (table : Table) (b : Binding) :
    b.definition.bindingOver table = b := by
  cases b <;> rfl

/-! ### Resolving again -/

namespace ResolvedEncoding

/-- The controls are not among the slots. -/
theorem channels_toEncoding (e : ResolvedEncoding) :
    e.toEncoding.channels = e.channels.map Binding.definition := by
  rw [← Encoding.channels_ofChannels (e.channels.map Binding.definition)]
  ext c : 2
  cases c <;> rfl

/-- A table has the fields that the channels are bound to. -/
def HasFields (e : ResolvedEncoding) (table : Table) : Prop :=
  ∀ c name type, e.channels.get? c = some (.field name type) → table.hasField name = true

/-- Resolving over any table with the fields gives the encoding back. -/
theorem resolve_of_hasFields {e : ResolvedEncoding} {table : Table}
    (h : e.HasFields table) : resolve table .empty e.toEncoding = .ok e := by
  have hchannels : inherit .empty e.toEncoding = e.channels.map Binding.definition := by
    rw [inherit_empty, channels_toEncoding]
  have hexists : ∃ r, resolve table .empty e.toEncoding = .ok r := by
    rw [exists_resolve_iff, hchannels]
    intro c d name hd hname
    obtain ⟨b, hb, hdefinition⟩ := Option.map_eq_some_iff.1 hd
    subst hdefinition
    cases b with
    | constant value => cases hname
    | field field type =>
      cases hname
      exact h c _ type hb
  obtain ⟨r, hr⟩ := hexists
  have hsame : r.channels = e.channels := by
    ext c : 2
    rw [get?_of_resolve hr, hchannels]
    show ((e.channels.get? c).map Binding.definition).map _ = _
    rw [Option.map_map]
    cases e.channels.get? c with
    | none => rfl
    | some b => exact congrArg some (b.bindingOver_definition table)
  have hcoordinates := coordinates_of_resolve hr
  have hlayout := (channels_of_resolve hr).2
  rw [hr]
  obtain ⟨channels, coordinates, layout⟩ := r
  cases hsame
  cases hcoordinates
  cases hlayout
  rfl

end ResolvedEncoding

/-! ### Equality -/

theorem Binding.beq_self (b : Binding) : (b == b) = true := by
  cases b with
  | field name type =>
    have hbeq : (field name type == field name type) = (name == name && type == type) := rfl
    simp [hbeq]
  | constant value =>
    have h : (value == value) = true := BEq.rfl
    exact h

/-- A directive is equal to itself unless its column count is a NaN. -/
theorem Layout.beq_self_iff {layout : Layout} :
    (layout == layout) = true ↔ ∀ columns ∈ layout.columns, columns.isNaN = false := by
  obtain ⟨kind, columns⟩ := layout
  have hbeq : ((⟨kind, columns⟩ : Layout) == ⟨kind, columns⟩) =
      (kind == kind && columns == columns) := rfl
  rw [hbeq, beq_self_eq_true, Bool.true_and]
  cases columns with
  | none => simp
  | some columns =>
    show (columns == columns) = true ↔ _
    rw [Binary64.beq_self_iff]
    simp

/-- A resolved encoding is equal to itself unless its column count is a NaN. -/
theorem ResolvedEncoding.beq_self_iff {e : ResolvedEncoding} :
    (e == e) = true ↔
      ∀ layout ∈ e.layout, ∀ columns ∈ layout.columns, columns.isNaN = false := by
  have hbeq : (e == e) =
      (e.channels == e.channels && (e.coordinates == e.coordinates && e.layout == e.layout)) := rfl
  have hchannels : (e.channels == e.channels) = true := by
    refine List.all_eq_true.2 fun c _ => ?_
    cases e.channels.get? c with
    | none => rfl
    | some b => exact b.beq_self
  rw [hbeq, hchannels, beq_self_eq_true, Bool.true_and, Bool.true_and]
  cases e.layout with
  | none => simp
  | some layout => simp [Layout.beq_self_iff]

/-! ### The fixed point -/

/-- An encoding that is resolved and written back has the channels of the node
    with every missing type filled in. With nothing to inherit it resolves to
    the same again, over its own table and any other that has the fields. -/
theorem resolve_toEncoding {t : Table} {inherited : Channels} {own : Encoding}
    {e : ResolvedEncoding} (h : resolve t inherited own = .ok e) :
    resolve t .empty e.toEncoding = .ok e ∧
    (∀ table, e.HasFields table → resolve table .empty e.toEncoding = .ok e) ∧
    e.toEncoding.channels = (inherit inherited own).map (Definition.typedOver t) ∧
    ((∀ layout ∈ own.layout, ∀ columns ∈ layout.columns, columns.isNaN = false) →
      (e == e) = true) := by
  have hfields : e.HasFields t := by
    intro c name type hc
    exact (field_of_resolve h hc).1
  refine ⟨ResolvedEncoding.resolve_of_hasFields hfields, fun _ => ResolvedEncoding.resolve_of_hasFields, ?_, ?_⟩
  · rw [ResolvedEncoding.channels_toEncoding]
    ext c : 2
    show (e.channels.get? c).map _ = ((inherit inherited own).get? c).map _
    rw [get?_of_resolve h, Option.map_map]
    congr 1
    funext d
    exact d.definition_bindingOver t
  · intro hcolumns
    rw [ResolvedEncoding.beq_self_iff, (channels_of_resolve h).2]
    exact hcolumns

/-- A column of numbers. -/
def numberColumn : Table := ⟨["foo"], [[.num 1.0], [.null]]⟩

/-- A column of the same name with a text. -/
def textColumn : Table := ⟨["foo"], [[.text "a"]]⟩

/-- A type that was inferred from numbers stays over a column of texts. -/
theorem resolve_toEncoding_of_texts :
    ∃ e, resolve numberColumn (ChannelMap.empty.insert .x (.field "foo" none))
        { y := some (.literal (.bool true)), layout := some ⟨.wrap, some 2.0⟩ } = .ok e ∧
      resolve textColumn .empty e.toEncoding = .ok e ∧
      e.toEncoding.channels.get? .x = some (.field "foo" (some .quantitative)) ∧
      textColumn.inferType "foo" = .ordinal ∧ (e == e) = true := by
  obtain ⟨e, he⟩ : ∃ e, resolve numberColumn (ChannelMap.empty.insert .x (.field "foo" none))
      { y := some (.literal (.bool true)), layout := some ⟨.wrap, some 2.0⟩ } = .ok e := ⟨_, rfl⟩
  obtain ⟨-, hagain, hchannels, hself⟩ := resolve_toEncoding he
  refine ⟨e, he, hagain _ ?_, ?_, rfl, hself ?_⟩
  · intro c name type hc
    obtain ⟨-, declared, hd⟩ := field_of_resolve he hc
    cases c <;> cases hd
    rfl
  · rw [hchannels]
    rfl
  · intro layout hlayout columns hcolumns
    cases hlayout
    cases hcolumns
    decide +kernel

end PlotGrammar
