import PlotGrammar.Proofs.Results
import PlotGrammar.Proofs.Table.Fields
import PlotGrammar.Resolution

/-! # What resolving gives

  A channel map that is resolved binds the same channels, each to what its own
  definition resolves to (`ChannelMap.map_get?_of_mapM`). So a field that a
  resolved encoding binds is a field of the table, and one that the node or a
  node above it names (`field_of_resolve`).

  Channels resolve exactly if the table has the fields that they refer to
  (`exists_resolve_iff`), each to its binding over the table
  (`get?_of_resolve`).
-/

namespace PlotGrammar

namespace ChannelMap

variable {α β ε : Type}

/-- Looking up in bindings that were computed one by one. -/
theorem lookup_of_forall₂ {m : ChannelMap α} {f : α → Except ε β} (channels : List Channel)
    {bindings : List (Channel × β)}
    (h : List.Forall₂ (fun x y => (do return (x.1, ← f x.2)) = Except.ok y)
      (channels.filterMap fun c => (m.get? c).map fun a => (c, a)) bindings) (c : Channel) :
    (if c ∈ channels then (m.get? c).map f else none) = (bindings.lookup c).map .ok := by
  induction channels generalizing bindings with
  | nil =>
    cases h
    rfl
  | cons d channels ih =>
    cases hd : m.get? d with
    | none =>
      -- An unbound channel leaves nothing behind.
      rw [List.filterMap_cons_none (by rw [hd]; rfl)] at h
      rw [← ih h]
      by_cases hc : c = d
      · subst hc
        simp [hd]
      · simp [hc]
    | some a =>
      rw [List.filterMap_cons_some (by rw [hd]; rfl)] at h
      cases h with
      | cons hfirst hrest =>
        obtain ⟨b, hb, hfirst⟩ := bind_eq_ok_iff.1 hfirst
        cases hfirst
        rw [List.lookup_cons]
        by_cases hc : c = d
        · subst hc
          simp [hd, hb]
        · have hne : (c == d) = false := by simpa using hc
          rw [hne, ← ih hrest]
          simp [hc]

/-- Mapping a channel map keeps the bound channels and maps what they are
    bound to. -/
theorem map_get?_of_mapM {f : α → Except ε β} {m : ChannelMap α} {n : ChannelMap β}
    (h : m.mapM f = .ok n) (c : Channel) : (m.get? c).map f = (n.get? c).map .ok := by
  obtain ⟨bindings, hbindings, h⟩ := bind_eq_ok_iff.1 h
  cases h
  have hlookup := lookup_of_forall₂ Channel.all (mapM_eq_ok_iff.1 hbindings) c
  rw [if_pos (Channel.mem_all c)] at hlookup
  exact hlookup

/-- What a mapped channel is bound to. -/
theorem get?_of_mapM {f : α → Except ε β} {m : ChannelMap α} {n : ChannelMap β}
    (h : m.mapM f = .ok n) {c : Channel} {b : β} :
    n.get? c = some b ↔ ∃ a, m.get? c = some a ∧ f a = .ok b := by
  have hmap := map_get?_of_mapM h c
  rw [← Option.map_eq_some_iff, hmap, Option.map_eq_some_iff]
  simp

/-- Mapping a channel map succeeds if it does at every bound channel. -/
theorem exists_mapM_eq_ok {f : α → Except ε β} {m : ChannelMap α}
    (h : ∀ c a, m.get? c = some a → ∃ b, f a = .ok b) : ∃ n, m.mapM f = .ok n := by
  have hall : ∀ x ∈ m.toList, ∃ y, (do return (x.1, ← f x.2) : Except ε (Channel × β)) = .ok y := by
    intro ⟨c, a⟩ hmem
    obtain ⟨b, hb⟩ := h c a (mem_toList.1 hmem)
    exact ⟨(c, b), bind_eq_ok_iff.2 ⟨b, hb, rfl⟩⟩
  obtain ⟨bindings, hbindings⟩ := PlotGrammar.exists_mapM_eq_ok hall
  exact ⟨ofList bindings, bind_eq_ok_iff.2 ⟨bindings, hbindings, rfl⟩⟩

/-- If mapping a channel map fails, it does so at a bound channel. -/
theorem exists_of_mapM_eq_error {f : α → Except ε β} {m : ChannelMap α} {e : ε}
    (h : m.mapM f = .error e) : ∃ c a, m.get? c = some a ∧ f a = .error e := by
  obtain ⟨⟨c, a⟩, hmem, hbinding⟩ := PlotGrammar.exists_of_mapM_eq_error (of_bind_ok_eq_error h)
  exact ⟨c, a, mem_toList.1 hmem, of_bind_ok_eq_error hbinding⟩

/-- Mapping a channel map by functions that are equal at every bound channel. -/
theorem mapM_congr {f g : α → Except ε β} {m : ChannelMap α}
    (h : ∀ c a, m.get? c = some a → f a = g a) : m.mapM f = m.mapM g := by
  have hall : ∀ x ∈ m.toList, (do return (x.1, ← f x.2) : Except ε (Channel × β)) =
      (do return (x.1, ← g x.2)) := by
    intro ⟨c, a⟩ hmem
    rw [h c a (mem_toList.1 hmem)]
  unfold mapM
  rw [PlotGrammar.mapM_congr hall]

/-- A filtered map binds the channels that pass. -/
theorem get?_filter {p : Channel → Bool} {m : ChannelMap α} {c : Channel} {a : α} :
    (m.filter p).get? c = some a ↔ p c = true ∧ m.get? c = some a := by
  by_cases h : p c = true
  · simp [filter, h]
  · simp [filter, h]

/-- What a filtered map binds, the map binds. -/
theorem get?_of_filter {p : Channel → Bool} {m : ChannelMap α} {c : Channel} {a : α}
    (h : (m.filter p).get? c = some a) : m.get? c = some a := by
  simp only [filter] at h
  split at h
  · exact h
  · cases h

/-- Mapping a channel map in two ways agrees if it does at every bound
    channel. -/
theorem agree_mapM {γ : Type} {f : α → Except ε β} {g : α → Except ε γ} {m : ChannelMap α}
    (h : ∀ c a, m.get? c = some a → Agree (fun _ _ => True) (f a) (g a)) :
    Agree (fun _ _ => True) (m.mapM f) (m.mapM g) := by
  have hall : ∀ x ∈ m.toList, Agree (fun _ _ => True)
      (do return (x.1, ← f x.2) : Except ε (Channel × β))
      (do return (x.1, ← g x.2) : Except ε (Channel × γ)) := by
    intro ⟨c, a⟩ hmem
    exact (h c a (mem_toList.1 hmem)).bind fun _ _ _ => .ok trivial
  exact (Agree.mapM hall).bind fun _ _ _ => .ok trivial

end ChannelMap

/-! ### Encodings -/

/-- A node that inherits nothing has its own channels. -/
theorem inherit_empty (own : Encoding) : inherit .empty own = own.channels := by
  ext c : 2
  exact Option.or_none

/-- A node that binds nothing has the channels that it inherits. -/
theorem inherit_unbound (inherited : Channels) : inherit inherited {} = inherited := by
  ext c : 2
  show (({} : Encoding).get? c).or (inherited.get? c) = inherited.get? c
  cases c <;> exact Option.none_or

/-- A definition resolves to a field only if it names it and the table has
    it. -/
theorem Definition.resolve_eq_field {t : Table} {d : Definition} {name : String} {type : FieldType}
    (h : d.resolve t = .ok (.field name type)) :
    t.hasField name = true ∧ ∃ declared, d = .field name declared := by
  cases d with
  | literal value => cases h
  | field other declared =>
    rw [Definition.resolve] at h
    by_cases hfield : t.hasField other = true
    · rw [if_pos hfield] at h
      cases h
      exact ⟨hfield, declared, rfl⟩
    · rw [if_neg hfield] at h
      cases h

/-- An encoding that is resolved binds what the node inherits and its own
    channels, and has the controls of the node. -/
theorem channels_of_resolve {t : Table} {inherited : Channels} {own : Encoding}
    {e : ResolvedEncoding} (h : resolve t inherited own = .ok e) :
    (∀ c, ((inherit inherited own).get? c).map (Definition.resolve t) =
      (e.channels.get? c).map .ok) ∧ e.layout = own.layout := by
  obtain ⟨channels, hchannels, h⟩ := bind_eq_ok_iff.1 h
  cases h
  exact ⟨ChannelMap.map_get?_of_mapM hchannels, rfl⟩

/-- A field that a resolved encoding binds is in the table, and the channels
    of the node name it. -/
theorem field_of_resolve {t : Table} {inherited : Channels} {own : Encoding}
    {e : ResolvedEncoding} (h : resolve t inherited own = .ok e) {c : Channel} {name : String}
    {type : FieldType} (hbound : e.channels.get? c = some (.field name type)) :
    t.hasField name = true ∧
      ∃ declared, (inherit inherited own).get? c = some (.field name declared) := by
  have hmap := (channels_of_resolve h).1 c
  rw [hbound, Option.map_some, Option.map_eq_some_iff] at hmap
  -- The binding of the channel is what its definition resolved to.
  obtain ⟨d, hd, hresolve⟩ := hmap
  obtain ⟨hfield, declared, rfl⟩ := Definition.resolve_eq_field hresolve
  exact ⟨hfield, declared, hd⟩

/-! ### Bindings over a table -/

/-- The binding of a definition over a table: a constant, or a field of the
    type that is declared or else that of its column. -/
def Definition.bindingOver (table : Table) : Definition → Binding
  | .literal value => .constant value
  | .field name type => .field name (type.getD (table.inferType name))

/-- A definition resolves exactly if the table has its field. -/
theorem Definition.resolve_eq_ok_iff {table : Table} {d : Definition} {b : Binding} :
    d.resolve table = .ok b ↔
      (∀ name, d.fieldName? = some name → table.hasField name = true) ∧ b = d.bindingOver table := by
  cases d with
  | literal value =>
    rw [resolve, Except.ok.injEq, eq_comm]
    simp [fieldName?, bindingOver]
  | field name type =>
    by_cases hfield : table.hasField name = true
    · rw [resolve, if_pos hfield, Except.ok.injEq, eq_comm]
      simp [fieldName?, bindingOver, hfield]
    · simp [resolve, fieldName?, hfield]

/-- Channels resolve exactly if the table has the fields that they refer to. -/
theorem exists_resolve_iff {table : Table} {inherited : Channels} {own : Encoding} :
    (∃ e, resolve table inherited own = .ok e) ↔
      ∀ c d name, (inherit inherited own).get? c = some d → d.fieldName? = some name →
        table.hasField name = true := by
  constructor
  · rintro ⟨e, h⟩ c d name hd hname
    have hmap := (channels_of_resolve h).1 c
    rw [hd, Option.map_some, eq_comm, Option.map_eq_some_iff] at hmap
    obtain ⟨b, -, hb⟩ := hmap
    exact (Definition.resolve_eq_ok_iff.1 hb.symm).1 name hname
  · intro h
    have hall : ∀ c d, (inherit inherited own).get? c = some d →
        ∃ b, d.resolve table = .ok b := fun c d hd =>
      ⟨_, Definition.resolve_eq_ok_iff.2 ⟨fun name hname => h c d name hd hname, rfl⟩⟩
    obtain ⟨channels, hchannels⟩ := ChannelMap.exists_mapM_eq_ok hall
    exact ⟨_, bind_eq_ok_iff.2 ⟨channels, hchannels, rfl⟩⟩

/-- A resolved channel is bound over the table. -/
theorem get?_of_resolve {table : Table} {inherited : Channels} {own : Encoding}
    {e : ResolvedEncoding} (h : resolve table inherited own = .ok e) (c : Channel) :
    e.channels.get? c = ((inherit inherited own).get? c).map (Definition.bindingOver table) := by
  have hmap := (channels_of_resolve h).1 c
  cases hd : (inherit inherited own).get? c with
  | none =>
    rw [hd, Option.map_none, eq_comm, Option.map_eq_none_iff] at hmap
    rw [hmap, Option.map_none]
  | some d =>
    rw [hd, Option.map_some, eq_comm, Option.map_eq_some_iff] at hmap
    obtain ⟨b, hb, hresolve⟩ := hmap
    rw [hb, Option.map_some, (Definition.resolve_eq_ok_iff.1 hresolve.symm).2]

/-- The coordinates of a node are its own, or cartesian. -/
theorem coordinates_of_resolve {table : Table} {inherited : Channels} {own : Encoding}
    {e : ResolvedEncoding} (h : resolve table inherited own = .ok e) :
    e.coordinates = own.coordinates.getD .cartesian := by
  obtain ⟨channels, -, h⟩ := bind_eq_ok_iff.1 h
  cases h
  rfl

end PlotGrammar
