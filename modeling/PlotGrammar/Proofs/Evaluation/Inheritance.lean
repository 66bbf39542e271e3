import Mathlib.Data.List.Induction
import PlotGrammar.Proofs.Evaluation.Structure

/-! # What a node inherits

  Every node hands its channels down to its children, whose own channels come
  first. So a channel of a node is the one that the deepest node on the way
  from the root binds (`BindsDeepest`). It is resolved against the table of
  the node where it is used, not of the one that binds it: the table must have
  the fields of the deepest bindings, and no field that is overridden on the
  way. The controls of a node, its coordinates and its layout, are its own.

  `Reached.exists_inherited` follows the channels along the calls of an
  evaluation, and `encoding_of_scene` says what every node of a scene has.
-/

namespace PlotGrammar

/-! ### The deepest binding -/

/-- Of some nodes, listed from the root on, the deepest that binds a channel
    binds it to a definition. -/
def BindsDeepest (nodes : List View) (c : Channel) (d : Definition) : Prop :=
  ∃ before w after, nodes = before ++ w :: after ∧ w.head.encoding.get? c = some d ∧
    ∀ w' ∈ after, w'.head.encoding.get? c = none

theorem not_bindsDeepest_nil {c : Channel} {d : Definition} : ¬ BindsDeepest [] c d := by
  rintro ⟨before, w, after, hnil, -⟩
  simp at hnil

/-- A node comes before all those above it. -/
theorem bindsDeepest_snoc {nodes : List View} {w : View} {c : Channel} {d : Definition} :
    BindsDeepest (nodes ++ [w]) c d ↔
      w.head.encoding.get? c = some d ∨
        w.head.encoding.get? c = none ∧ BindsDeepest nodes c d := by
  constructor
  · rintro ⟨before, binder, after, hnodes, hbinds, hafter⟩
    rcases List.eq_nil_or_concat' after with rfl | ⟨between, last, rfl⟩
    · -- The last node is the binder.
      obtain ⟨-, hlast⟩ := List.append_inj' hnodes rfl
      rw [(List.cons.inj hlast).1]
      exact .inl hbinds
    · rw [← List.cons_append, ← List.append_assoc] at hnodes
      obtain ⟨hfront, hlast⟩ := List.append_inj' hnodes rfl
      rw [(List.cons.inj hlast).1]
      refine .inr ⟨hafter last (by simp), before, binder, between, hfront, hbinds, ?_⟩
      intro w' hmem
      exact hafter w' (List.mem_append_left _ hmem)
  · rintro (hown | ⟨hnone, before, binder, after, rfl, hbinds, hafter⟩)
    · exact ⟨nodes, w, [], rfl, hown, by simp⟩
    · refine ⟨before, binder, after ++ [w], by simp, hbinds, ?_⟩
      intro w' hmem
      rcases List.mem_append.1 hmem with hmem | hmem
      · exact hafter w' hmem
      · rw [List.mem_singleton.1 hmem]
        exact hnone

/-- There is a deepest binding exactly if there is a binding. -/
theorem exists_bindsDeepest_iff {nodes : List View} {c : Channel} :
    (∃ d, BindsDeepest nodes c d) ↔ ∃ w ∈ nodes, ∃ d, w.head.encoding.get? c = some d := by
  constructor
  · rintro ⟨d, before, w, after, rfl, hbinds, -⟩
    exact ⟨w, by simp, d, hbinds⟩
  · rintro ⟨w, hmem, d, hbinds⟩
    -- Going down the list, the deepest binding so far is kept or replaced.
    induction nodes using List.reverseRecOn with
    | nil => cases hmem
    | append_singleton nodes last ih =>
      cases hlast : last.head.encoding.get? c with
      | some d' => exact ⟨d', bindsDeepest_snoc.2 (.inl hlast)⟩
      | none =>
        rcases List.mem_append.1 hmem with hmem | hmem
        · obtain ⟨d', hd'⟩ := ih hmem
          exact ⟨d', bindsDeepest_snoc.2 (.inr ⟨hlast, hd'⟩)⟩
        · rw [List.mem_singleton.1 hmem, hlast] at hbinds
          cases hbinds

/-- A node that inherits the deepest bindings above it has its own and these. -/
theorem get?_inherit_iff {inherited : Channels} {above : List View} {w : View}
    (h : ∀ c d, inherited.get? c = some d ↔ BindsDeepest above c d) {c : Channel}
    {d : Definition} :
    (inherit inherited w.head.encoding).get? c = some d ↔ BindsDeepest (above ++ [w]) c d := by
  rw [inherit, ChannelMap.get?_merge, Option.or_eq_some_iff, bindsDeepest_snoc, h]
  rfl

/-- The children of a node inherit its channels. -/
theorem Call.Makes.inherited_eq {config : Config} {c c' : Call} (h : c.Makes config c') :
    c'.inherited = inherit c.inherited c.view.head.encoding := by
  cases h <;> rfl

/-- A call that was reached has inherited the deepest bindings above its node. -/
theorem Reached.exists_inherited {config : Config} {v : View} {t : Table} {call : Call}
    (h : Reached config v t call) :
    ∃ above, v.above? call.path.indices = some above ∧
      v.at? call.path.indices = some call.view ∧
      ∀ c d, call.inherited.get? c = some d ↔ BindsDeepest above c d := by
  induction h with
  | root =>
    refine ⟨[], rfl, rfl, fun c d => ?_⟩
    simp [not_bindsDeepest_nil]
  | next _ hmakes ih =>
    obtain ⟨above, habove, hat, hinherited⟩ := ih
    obtain ⟨index, hchild, hpath⟩ := hmakes.exists_child
    obtain ⟨habove, hat⟩ := View.above?_snoc habove hat hchild
    rw [hpath]
    refine ⟨_, habove, hat, fun c d => ?_⟩
    rw [hmakes.inherited_eq]
    exact get?_inherit_iff hinherited

/-- All calls for the node at a path have the same channels, those that the
    node and the nodes above it bind deepest. -/
theorem Reached.get?_inherit_iff {config : Config} {v own : View} {t : Table} {call : Call}
    {above : List View} (h : Reached config v t call)
    (habove : v.above? call.path.indices = some above) {c : Channel} {d : Definition} :
    (inherit call.inherited own.head.encoding).get? c = some d ↔
      BindsDeepest (above ++ [own]) c d := by
  obtain ⟨above', habove', -, hinherited⟩ := h.exists_inherited
  rw [habove] at habove'
  cases habove'
  exact PlotGrammar.get?_inherit_iff hinherited

/-! ### Scenes -/

/-- Every node of a scene has, in each channel, what the deepest node binds on
    the way to it from the root, resolved over its own table, and the
    coordinates and the layout of its own. Over whatever table it is evaluated,
    the table needs the fields of the deepest bindings only: a field that is
    bound above and overridden may be missing. -/
theorem encoding_of_scene {config : Config} {v : View} {t : Table} {scene : Scene}
    (h : compile config v t = .ok scene) {n : SceneNode} (hn : SceneNode.Holds n scene.root) :
    ∃ above own, v.above? n.path.indices = some above ∧ v.at? n.path.indices = some own ∧
      n.encoding.coordinates = own.head.encoding.coordinates.getD .cartesian ∧
      n.encoding.layout = own.head.encoding.layout ∧
      (∀ c, (∃ b, n.encoding.channels.get? c = some b) ↔
        ∃ w ∈ above ++ [own], ∃ d, w.head.encoding.get? c = some d) ∧
      (∃ table, MadeOver config v t n table) ∧
      (∀ table, MadeOver config v t n table → ∀ c d, BindsDeepest (above ++ [own]) c d →
        n.encoding.channels.get? c = some (d.bindingOver table)) ∧
      ∀ call, Reached config v t call → call.path = n.path → ∀ table,
        (∃ e, resolve table call.inherited own.head.encoding = .ok e) ↔
          ∀ c d name, BindsDeepest (above ++ [own]) c d → d.fieldName? = some name →
            table.hasField name = true := by
  obtain ⟨table, htable⟩ := exists_madeOver h hn
  obtain ⟨call, o, hreached, hpath, hat, hprepare, -, -⟩ := htable.exists_call
  obtain ⟨above, habove, -⟩ := hreached.exists_above
  have hdeepest : ∀ c d, (inherit call.inherited call.view.head.encoding).get? c = some d ↔
      BindsDeepest (above ++ [call.view]) c d := fun c d => hreached.get?_inherit_iff habove
  rw [hpath] at habove
  have hresolve := (prepare_eq_ok_iff.1 hprepare).2
  refine ⟨above, call.view, habove, hat, coordinates_of_resolve hresolve,
    layout_of_prepare hprepare, fun c => ?_, ⟨table, htable⟩, fun other hother c d hd => ?_,
    fun call' hreached' hpath' table' => ?_⟩
  · rw [← exists_bindsDeepest_iff, get?_of_resolve hresolve]
    simp only [Option.map_eq_some_iff, ← hdeepest]
    constructor
    · rintro ⟨b, d, hd, -⟩
      exact ⟨d, hd⟩
    · rintro ⟨d, hd⟩
      exact ⟨d.bindingOver o.table, d, hd, rfl⟩
  · -- The node may have been given by another call, which is for the same view.
    obtain ⟨call', o', hreached', hpath', hat', hprepare', rfl, -⟩ := hother.exists_call
    rw [hat] at hat'
    rw [← Option.some.inj hat'] at hprepare'
    rw [← hpath'] at habove
    rw [get?_of_resolve (prepare_eq_ok_iff.1 hprepare').2,
      (hreached'.get?_inherit_iff habove).2 hd, Option.map_some]
  · rw [← hpath'] at habove
    rw [exists_resolve_iff]
    simp only [hreached'.get?_inherit_iff habove]

/-- A bar as high as a count of the rows, below a node that binds the height to
    a column that the count drops. -/
def countBelowHeights : View :=
  .nested { encoding := { x := some (.literal (.text "a")), y := some (.field "foo" none) } }
    (.mark { steps := [.aggregate ⟨"count", none, "n"⟩]
             encoding := { y := some (.field "n" none) } } .bar)

/-- Two rows with heights. -/
def heights : Table := ⟨["foo"], [[.num 1.0], [.num 2.0]]⟩

/-- The bar is as high as the count, which is a number in its own table, though
    the overridden column is gone there; the constant above it is kept. -/
theorem encoding_of_scene_of_overridden :
    ∃ scene leaf, compile {} countBelowHeights heights = .ok scene ∧
      SceneNode.Holds (.marks leaf) scene.root ∧ leaf.path = .child .root 0 ∧
      leaf.table.hasField "foo" = false ∧
      leaf.encoding.channels.get? .y = some (.field "n" .quantitative) ∧
      leaf.encoding.channels.get? .x = some (.constant (.text "a")) := by
  obtain ⟨scene, leaf, hscene, hleaf, hpath, hfield, htype⟩ :
      ∃ scene leaf, compile {} countBelowHeights heights = .ok scene ∧ leaf ∈ scene.leaves ∧
        leaf.path = .child .root 0 ∧ leaf.table.hasField "foo" = false ∧
        leaf.table.inferType "n" = .quantitative :=
    ⟨_, _, rfl, List.mem_singleton.2 rfl, rfl, rfl, rfl⟩
  have hn := SceneNode.holds_of_mem_leaves hleaf
  obtain ⟨above, own, habove, hown, -, -, -, ⟨table, htable⟩, hbound, -⟩ :=
    encoding_of_scene hscene hn
  obtain rfl : leaf.table = table := htable.table_eq
  have hbound : ∀ c d, BindsDeepest (above ++ [own]) c d →
      leaf.encoding.channels.get? c = some (d.bindingOver leaf.table) := hbound _ htable
  -- The way to the bar leads from the root to its one child.
  rw [show (SceneNode.marks leaf).path = .child .root 0 from hpath] at habove hown
  cases habove
  cases hown
  refine ⟨scene, leaf, hscene, hn, hpath, hfield, ?_, ?_⟩
  · have hdeepest := hbound .y _ ⟨[_], _, [], rfl, rfl, by simp⟩
    rw [hdeepest, Definition.bindingOver, Option.getD_none, htype]
  · have hdeepest := hbound .x _ ⟨[], _, [_], rfl, rfl, by simp [View.head, Encoding.get?]⟩
    rw [hdeepest, Definition.bindingOver]

end PlotGrammar
