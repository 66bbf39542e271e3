import PlotGrammar.Encoding
import PlotGrammar.View.Basic

/-! # The fields that a view mentions

  A view names fields in two places: its channels refer to fields, and its
  steps read and write them. What a node hands down to its children is again
  named by it or by a node above it (`mem_fieldNames_inherit`).
-/

namespace PlotGrammar

/-! ### Channels -/

/-- The fields that channels refer to. -/
theorem ChannelMap.mem_fieldNames {m : Channels} {name : String} :
    name ∈ m.fieldNames ↔ ∃ c declared, m.get? c = some (.field name declared) := by
  rw [fieldNames, List.mem_eraseDups, List.mem_filterMap]
  constructor
  · intro ⟨⟨c, d⟩, hmem, hname⟩
    cases d with
    | literal value => cases hname
    | field other declared =>
      cases hname
      exact ⟨c, declared, mem_toList.1 hmem⟩
  · intro ⟨c, declared, h⟩
    exact ⟨(c, .field name declared), mem_toList.2 h, rfl⟩

/-- Channels that are inherited or a node's own refer to no new fields. -/
theorem mem_fieldNames_inherit {inherited : Channels} {own : Encoding} {name : String}
    (h : name ∈ (inherit inherited own).fieldNames) :
    name ∈ inherited.fieldNames ∨ name ∈ own.channels.fieldNames := by
  obtain ⟨c, declared, h⟩ := ChannelMap.mem_fieldNames.1 h
  -- A channel is the node's own if it binds it, and inherited otherwise.
  rw [inherit, ChannelMap.get?_merge, Option.or_eq_some_iff] at h
  rcases h with hown | ⟨-, hinherited⟩
  · exact .inr (ChannelMap.mem_fieldNames.2 ⟨c, declared, hown⟩)
  · exact .inl (ChannelMap.mem_fieldNames.2 ⟨c, declared, hinherited⟩)

/-! ### Views -/

/-- The fields that a step reads or writes. -/
def Step.mentions : Step → List String
  | .bin step => [step.field, step.out]
  | .aggregate step => step.field.toList ++ [step.out]

theorem not_mem_mentions_bin {step : BinStep} {name : String} :
    name ∉ (Step.bin step).mentions ↔ step.field ≠ name ∧ step.out ≠ name := by
  simp only [Step.mentions, List.mem_cons, List.not_mem_nil, or_false, not_or]
  rw [ne_comm, ne_comm (a := step.out)]

theorem not_mem_mentions_aggregate {step : AggregateStep} {name : String} :
    name ∉ (Step.aggregate step).mentions ↔ step.field ≠ some name ∧ step.out ≠ name := by
  simp only [Step.mentions, List.mem_append, Option.mem_toList, List.mem_singleton, not_or]
  rw [ne_comm (a := step.out)]

/-- The fields that a node mentions: in its steps and in its channels. -/
def ViewHead.mentions (head : ViewHead) : List String :=
  head.steps.flatMap Step.mentions ++ head.encoding.channels.fieldNames

namespace View

mutual

/-- The fields that a view mentions anywhere. -/
def mentions : View → List String
  | .mark head _ => head.mentions
  | .nested head child => head.mentions ++ child.mentions
  | .concat head children => head.mentions ++ mentionsOf children

/-- The fields that some views mention. -/
def mentionsOf : List View → List String
  | [] => []
  | v :: rest => v.mentions ++ mentionsOf rest

end

/-- What a member of some views mentions, the views mention. -/
theorem mem_mentionsOf {name : String} {v : View} {views : List View} (hmem : v ∈ views)
    (h : name ∈ v.mentions) : name ∈ mentionsOf views := by
  induction views with
  | nil => cases hmem
  | cons w views ih =>
    rw [mentionsOf, List.mem_append]
    rcases List.mem_cons.1 hmem with rfl | hmem
    · exact .inl h
    · exact .inr (ih hmem)

end View

/-- A field that is not mentioned is not the field of the grouping channel. -/
theorem ViewHead.detailField?_ne {head : ViewHead} {u field : String} (h : u ∉ head.mentions)
    (hdetail : head.encoding.detailField? = some field) : field ≠ u := by
  intro heq
  subst heq
  obtain ⟨d, hd, hname⟩ := Option.bind_eq_some_iff.1 hdetail
  cases d with
  | literal value => cases hname
  | field other declared =>
    cases hname
    have hmem : field ∈ head.encoding.channels.fieldNames :=
      ChannelMap.mem_fieldNames.2 ⟨.detail, declared, hd⟩
    exact h (List.mem_append_right _ hmem)

end PlotGrammar
