import PlotGrammar.Proofs.Resolution.FixedPoint
import PlotGrammar.Proofs.Resolution.Order
import PlotGrammar.Proofs.View.Mentions

/-! # Merging channels

  Channel maps form a monoid. Merging puts the bindings of the second map over
  those of the first, as binding them one after the other does
  (`ChannelMap.foldl_insert_eq_merge`), and the empty map changes nothing.

  An encoding stands for its channel map and back: filling slots is binding
  channels (`Encoding.channels_insert`), so nothing is lost between the two but
  the controls of the node (`Encoding.ofChannels_channels`).

  A chain of nodes hands its channels down by merging. By the laws of the monoid
  a chain acts as a single encoding (`foldl_inherit_eq`), which has at every
  channel the last binding of the chain (`get?_foldl_inherit`).
-/

namespace PlotGrammar

/-! ### The monoid -/

namespace ChannelMap

section

variable {α : Type}

theorem merge_assoc (a b c : ChannelMap α) : (a.merge b).merge c = a.merge (b.merge c) := by
  ext channel : 2
  simp [Option.or_assoc]

@[simp] theorem empty_merge (a : ChannelMap α) : empty.merge a = a := by
  ext channel : 2
  simp

@[simp] theorem merge_empty (a : ChannelMap α) : a.merge empty = a := by
  ext channel : 2
  simp

instance : Std.Associative (merge (α := α)) := ⟨merge_assoc⟩

end

/-- A channel map is equal to itself, also if it binds a constant that is a NaN. -/
theorem beq_self (m : Channels) : (m == m) = true := by
  refine List.all_eq_true.2 fun c _ => ?_
  cases m.get? c with
  | none => rfl
  | some d => exact d.beq_self

end ChannelMap

/-! ### Slots -/

namespace Encoding

/-- Filling the slot of a channel binds that channel and no other. -/
theorem channels_insert (e : Encoding) (c : Channel) (d : Definition) :
    (e.insert c d).channels = e.channels.insert c d := by
  ext c' : 2
  exact get?_insert e c d c'

theorem channels_foldl_insert (e : Encoding) (bindings : List (Channel × Definition)) :
    (bindings.foldl (fun e b => e.insert b.1 b.2) e).channels =
      bindings.foldl (fun m b => m.insert b.1 b.2) e.channels :=
  (List.foldl_hom channels fun e b => (channels_insert e b.1 b.2).symm).symm

/-- Filling slots leaves the controls alone. -/
theorem controls_foldl_insert (e : Encoding) (bindings : List (Channel × Definition)) :
    (bindings.foldl (fun e b => e.insert b.1 b.2) e).coordinates = e.coordinates ∧
      (bindings.foldl (fun e b => e.insert b.1 b.2) e).layout = e.layout := by
  induction bindings generalizing e with
  | nil => simp
  | cons b bindings ih =>
    have hcoordinates : (e.insert b.1 b.2).coordinates = e.coordinates := by
      cases b.1 <;> rfl
    have hlayout : (e.insert b.1 b.2).layout = e.layout := by
      cases b.1 <;> rfl
    rw [List.foldl_cons, (ih _).1, (ih _).2]
    exact ⟨hcoordinates, hlayout⟩

/-- Of an encoding, its channel map keeps everything but the controls. -/
theorem ofChannels_channels (e : Encoding) :
    ofChannels e.channels = { e with coordinates := none, layout := none } := by
  obtain ⟨hcoordinates, hlayout⟩ := controls_foldl_insert {} e.channels.toList
  rw [eq_iff]
  refine ⟨fun c => ?_, hcoordinates, hlayout⟩
  have hslot : (ofChannels e.channels).get? c = e.get? c :=
    congrArg (fun m => m.get? c) (channels_ofChannels e.channels)
  rw [hslot]
  cases c <;> rfl

/-- Without a layout directive there is no column count that could be a NaN. -/
theorem beq_self_of_layout_eq_none {e : Encoding} (h : e.layout = none) : (e == e) = true := by
  have hslots := List.all_eq_true.1 (ChannelMap.beq_self e.channels)
  rw [beq_iff]
  refine ⟨fun c => hslots c (Channel.mem_all c), rfl, ?_⟩
  rw [h]
  rfl

end Encoding

/-- Merging a map binds its channels one after the other. -/
theorem ChannelMap.foldl_insert_eq_merge (a b : Channels) :
    b.toList.foldl (fun m binding => m.insert binding.1 binding.2) a = a.merge b := by
  -- The bindings are followed through the slots of an encoding.
  rw [← Encoding.channels_ofChannels a, ← Encoding.channels_foldl_insert]
  ext c : 2
  have hslots := Encoding.get?_foldl_insert (m := b) Channel.all (.ofChannels a) c
  rw [if_pos (Channel.mem_all c)] at hslots
  exact hslots

/-! ### Fields in channel order -/

theorem Definition.fieldName?_eq_some_iff {d : Definition} {name : String} :
    d.fieldName? = some name ↔ ∃ declared, d = .field name declared := by
  cases d <;> simp [fieldName?]

namespace ChannelMap

/-- A channel is bound to a field. -/
def RefersTo (m : Channels) (c : Channel) (name : String) : Prop :=
  ∃ declared, m.get? c = some (.field name declared)

/-- The first channel, in channel order, that is bound to a field. -/
structure IsLowest (m : Channels) (c : Channel) (name : String) : Prop where
  refers : m.RefersTo c name
  first : ∀ c', c'.Precedes c → ¬ m.RefersTo c' name

/-- Names are those of the fields that channels are bound to. -/
structure ListsFields (m : Channels) (names : List String) : Prop where
  /-- They are the fields of the channels and no others. -/
  mem_iff : ∀ name, name ∈ names ↔ ∃ c, m.RefersTo c name
  /-- No field is listed twice. -/
  nodup : names.Nodup
  /-- A field stands before another if its lowest channel comes before all
      channels of the other. -/
  ordered : names.Pairwise fun name later =>
    ∃ c, m.IsLowest c name ∧ ∀ c', m.RefersTo c' later → c.Precedes c'

theorem listsFields_fieldNames (m : Channels) : m.ListsFields m.fieldNames where
  mem_iff _ := mem_fieldNames
  nodup := nodup_eraseDups _
  ordered := by
    have hdistinct : m.fieldNames.Nodup := nodup_eraseDups _
    refine ((pairwise_eraseDups_filterMap m.toList).and hdistinct).imp ?_
    rintro name later ⟨⟨before, ⟨c, d⟩, after, hlist, hname, hbefore⟩, hne⟩
    have hbound : m.get? c = some d := mem_toList.1 (by simp [hlist])
    obtain ⟨declared, rfl⟩ := Definition.fieldName?_eq_some_iff.1 hname
    -- No channel below this one is bound to either field.
    have hbelow : ∀ c', c'.Precedes c → ¬ m.RefersTo c' name ∧ ¬ m.RefersTo c' later := by
      intro c' hprecedes
      constructor
      · intro ⟨_, hc'⟩
        exact (hbefore _ ((mem_before_iff hlist).2 ⟨hprecedes, hc'⟩)).1 rfl
      · intro ⟨_, hc'⟩
        exact (hbefore _ ((mem_before_iff hlist).2 ⟨hprecedes, hc'⟩)).2 rfl
    refine ⟨c, ⟨⟨declared, hbound⟩, fun c' hprecedes => (hbelow c' hprecedes).1⟩, ?_⟩
    intro c' hrefers
    rcases Channel.precedes_or_eq_or_precedes c c' with hprecedes | rfl | hprecedes
    · exact hprecedes
    · -- The same channel would be bound to two fields.
      obtain ⟨declared', hlater⟩ := hrefers
      simp [hbound, hne] at hlater
    · exact absurd hrefers (hbelow c' hprecedes).2

/-- A field that is bound twice counts by its lower channel. -/
example : ((empty.insert .color (.field "site" none)).insert .y (.field "length" none)
    |>.insert .x (.field "site" (some .ordinal))).fieldNames = ["site", "length"] := by decide

end ChannelMap

/-! ### Chains -/

/-- The last definition that a chain of encodings binds a channel to. -/
def lastBinding? (chain : List Encoding) (c : Channel) : Option Definition :=
  chain.reverse.findSome? fun e => e.get? c

theorem lastBinding?_cons (e : Encoding) (chain : List Encoding) (c : Channel) :
    lastBinding? (e :: chain) c = (lastBinding? chain c).or (e.get? c) := by
  simp [lastBinding?, List.findSome?_append]

/-- The last node of a chain that binds a channel decides, and above the chain
    what is inherited. -/
theorem get?_foldl_inherit (inherited : Channels) (chain : List Encoding) (c : Channel) :
    (chain.foldl inherit inherited).get? c = (lastBinding? chain c).or (inherited.get? c) := by
  induction chain generalizing inherited with
  | nil => rfl
  | cons e chain ih =>
    rw [List.foldl_cons, ih, lastBinding?_cons, Option.or_assoc]
    rfl

/-- A chain acts as a single encoding. -/
theorem foldl_inherit_eq (inherited : Channels) (chain : List Encoding) :
    chain.foldl inherit inherited =
      inherit inherited (.ofChannels (chain.foldl inherit .empty)) := by
  have hmaps : ∀ m, chain.foldl inherit m = (chain.map Encoding.channels).foldl .merge m := by
    intro m
    rw [List.foldl_map]
    rfl
  calc chain.foldl inherit inherited
      = (chain.map Encoding.channels).foldl .merge (inherited.merge .empty) := by
        rw [ChannelMap.merge_empty, hmaps]
    _ = inherited.merge ((chain.map Encoding.channels).foldl .merge .empty) := List.foldl_assoc
    _ = inherit inherited (.ofChannels (chain.foldl inherit .empty)) := by
        rw [inherit, Encoding.channels_ofChannels, hmaps]

/-! ### Channel maps and encodings -/

/-- Merging is associative, the empty map is neutral, and a channel is bound as
    in the second map or else as in the first, as by binding the channels of the
    second one after the other. A channel map comes back from its encoding, and
    an encoding from its channel map but for the controls, also in the sense of
    `==`. The fields of a map are listed once each, by their lowest channels.
    So a chain of encodings acts as a single one, and gives at every channel the
    last binding of the chain. -/
theorem merges_exactly (a b c : Channels) (e : Encoding) (chain : List Encoding) :
    (a.merge b).merge c = a.merge (b.merge c) ∧
    ChannelMap.empty.merge a = a ∧ a.merge .empty = a ∧
    (∀ channel, (a.merge b).get? channel = (b.get? channel).or (a.get? channel)) ∧
    b.toList.foldl (fun m binding => m.insert binding.1 binding.2) a = a.merge b ∧
    (Encoding.ofChannels a).channels = a ∧ ((Encoding.ofChannels a).channels == a) = true ∧
    Encoding.ofChannels e.channels = { e with coordinates := none, layout := none } ∧
    (Encoding.ofChannels e.channels == { e with coordinates := none, layout := none }) = true ∧
    a.ListsFields a.fieldNames ∧
    chain.foldl inherit a = inherit a (.ofChannels (chain.foldl inherit .empty)) ∧
    ∀ channel, (chain.foldl inherit a).get? channel =
      (lastBinding? chain channel).or (a.get? channel) := by
  have hback := Encoding.channels_ofChannels a
  have hcleared := Encoding.ofChannels_channels e
  refine ⟨ChannelMap.merge_assoc a b c, a.empty_merge, a.merge_empty, a.get?_merge b,
    ChannelMap.foldl_insert_eq_merge a b, hback, ?_, hcleared, ?_, a.listsFields_fieldNames,
    foldl_inherit_eq a chain, get?_foldl_inherit a chain⟩
  · rw [hback]
    exact a.beq_self
  · rw [hcleared]
    exact Encoding.beq_self_of_layout_eq_none rfl

end PlotGrammar
