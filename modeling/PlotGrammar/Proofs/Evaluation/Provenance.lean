import PlotGrammar.Proofs.Evaluation.Calls
import PlotGrammar.Proofs.Pipeline.Histories

/-! # Which fields count as aggregated

  An instance says of every field that it binds whether an aggregate wrote it.
  What counts is the last step that writes the field, among the steps of all
  nodes from the root to the mark.

  A mark looks at its own steps only: it does not know what the nodes above it
  have aggregated. So the flag is right but for the fields that an aggregate
  above the mark wrote last and that no step of the mark writes
  (`IsForgotten`). `aggregated_iff` says so for every instance of a scene.
-/

namespace PlotGrammar

/-- The steps of some nodes, from the first node to the last. -/
def stepsOf (nodes : List View) : List Step := nodes.flatMap fun node => node.head.steps

/-- An aggregate of the nodes above wrote a field last, and no step of the node
    itself writes it. -/
def IsForgotten (above : List View) (head : ViewHead) (field : String) : Prop :=
  lastWriter? head.steps field = none ∧ AggregateWroteLast (stepsOf above) field

/-- The steps of a node come after those of the nodes above. -/
theorem aggregateWroteLast_stepsOf_append {above : List View} {head : ViewHead} {field : String} :
    AggregateWroteLast (stepsOf above ++ head.steps) field ↔
      AggregateWroteLast head.steps field ∨ IsForgotten above head field := by
  unfold IsForgotten AggregateWroteLast
  rw [lastWriter?_append]
  cases lastWriter? head.steps field with
  | none => simp
  | some step => simp

/-- A field that is forgotten was not written by the node itself. -/
theorem IsForgotten.not_aggregateWroteLast {above : List View} {head : ViewHead} {field : String}
    (h : IsForgotten above head field) : ¬ AggregateWroteLast head.steps field := by
  intro ⟨step, hstep⟩
  rw [h.1] at hstep
  cases hstep

/-- The flag of a field that a mark binds looks at the steps of the mark. -/
theorem Call.flag_iff {config : Config} {call : Call} {leaf : MarkLeaf}
    (h : call.run config = .ok (.marks leaf)) {i : MarkInstance} (hi : i ∈ leaf.instances)
    {c : Channel} {field : String} {type : FieldType} {value : Cell} {flag : Bool}
    (hbound : i.channels.get? c = some (.field field type value flag)) :
    ∃ head, call.view = .mark head leaf.mark ∧ call.path = leaf.path ∧
      (flag = true ↔ AggregateWroteLast head.steps field) := by
  obtain ⟨head, o, hview, hpath, hprepare, -, hgroups⟩ := exists_of_run_eq_marks h
  refine ⟨head, hview, hpath, ?_⟩
  obtain ⟨group, hgroup, hi⟩ := List.mem_flatMap.1 hi
  obtain ⟨row, index, -, hi⟩ := exists_instanceOf_of_mem hgroups hgroup hi
  obtain ⟨hbinding, rfl⟩ := flag_of_instanceOf hi hbound
  obtain ⟨hrun, hresolve⟩ := prepare_eq_ok_iff.1 hprepare
  -- The encoding binds fields of the table, so the field is not lost.
  have hfield : o.table.hasField field = true := fieldsIn_of_resolve hresolve c field type hbinding
  rw [List.contains_iff_mem, Pipeline.mem_aggregated_of_run hrun field]
  exact and_iff_right hfield

/-- The flag of a field is set exactly if the last step of the mark that writes
    the field is an aggregate. So it is what the steps on the way from the root
    say exactly for the fields that are not forgotten. -/
theorem aggregated_iff {config : Config} {v : View} {t : Table} {scene : Scene}
    (h : compile config v t = .ok scene) {leaf : MarkLeaf} (hleaf : leaf ∈ scene.leaves)
    {i : MarkInstance} (hi : i ∈ leaf.instances) {c : Channel} {field : String} {type : FieldType}
    {value : Cell} {flag : Bool}
    (hbound : i.channels.get? c = some (.field field type value flag)) :
    ∃ above head, v.above? leaf.path.indices = some above ∧
      v.at? leaf.path.indices = some (.mark head leaf.mark) ∧
      (flag = true ↔ AggregateWroteLast head.steps field) ∧
      ((flag = true ↔ AggregateWroteLast (stepsOf above ++ head.steps) field) ↔
        ¬ IsForgotten above head field) := by
  obtain ⟨call, hreached, hrun⟩ := exists_reached_of_mem_leaves h hleaf
  obtain ⟨head, hview, hpath, hflag⟩ := Call.flag_iff hrun hi hbound
  obtain ⟨above, habove, hat⟩ := hreached.exists_above
  rw [hpath] at habove hat
  rw [hview] at hat
  refine ⟨above, head, habove, hat, hflag, ?_⟩
  rw [hflag, aggregateWroteLast_stepsOf_append]
  constructor
  · -- A forgotten field has no flag, though an aggregate wrote it last.
    intro hright hforgotten
    exact hforgotten.not_aggregateWroteLast (hright.2 (.inr hforgotten))
  · intro hkept
    exact ⟨Or.inl, fun hlast => hlast.resolve_right hkept⟩

/-- A bar as high as a count, with the steps of the node above and of the
    bar. -/
def countBar (above own : List Step) : View :=
  .nested { steps := above }
    (.mark { steps := own, encoding := { y := some (.field "n" none) } } .bar)

/-- The count of all rows. -/
def countRows : Step := .aggregate ⟨"count", none, "n"⟩

/-- Two rows to count. -/
def twoRows : Table := ⟨["foo"], [[.num 1.0], [.num 2.0]]⟩

/-- A bar that counts by itself has the flag of its own count. -/
theorem aggregated_iff_of_own_count :
    ∃ scene leaf i value flag, compile {} (countBar [] [countRows]) twoRows = .ok scene ∧
      leaf.path = .child .root 0 ∧ leaf ∈ scene.leaves ∧ i ∈ leaf.instances ∧
      i.channels.get? .y = some (.field "n" .quantitative value flag) ∧
      (flag = true ↔ AggregateWroteLast [countRows] "n") := by
  obtain ⟨scene, leaf, i, value, flag, hcompile, hpath, hleaf, hi, hbound⟩ :
      ∃ scene leaf i value flag, compile {} (countBar [] [countRows]) twoRows = .ok scene ∧
        leaf.path = .child .root 0 ∧ leaf ∈ scene.leaves ∧ i ∈ leaf.instances ∧
        i.channels.get? .y = some (.field "n" .quantitative value flag) :=
    ⟨_, _, _, _, _, rfl, rfl, List.mem_singleton.2 rfl, List.mem_singleton.2 rfl, rfl⟩
  obtain ⟨above, head, -, hat, hflag, -⟩ := aggregated_iff hcompile hleaf hi hbound
  rw [hpath] at hat
  obtain ⟨rfl, -⟩ := View.mark.inj (Option.some.inj hat)
  exact ⟨scene, leaf, i, value, flag, hcompile, hpath, hleaf, hi, hbound, hflag⟩

/-- A bar over a table that the node above has counted has no flag, though an
    aggregate wrote the count. -/
theorem not_aggregated_of_count_above :
    ∃ scene leaf i value, compile {} (countBar [countRows] []) twoRows = .ok scene ∧
      leaf ∈ scene.leaves ∧ i ∈ leaf.instances ∧
      i.channels.get? .y = some (.field "n" .quantitative value false) ∧
      ∃ above head, (countBar [countRows] []).above? leaf.path.indices = some above ∧
        (countBar [countRows] []).at? leaf.path.indices = some (.mark head leaf.mark) ∧
        ¬ (false = true ↔ AggregateWroteLast (stepsOf above ++ head.steps) "n") := by
  refine ⟨_, _, _, _, rfl, List.mem_singleton.2 rfl, List.mem_singleton.2 rfl, rfl, ?_⟩
  refine ⟨_, _, rfl, rfl, fun hright => ?_⟩
  have hlast : AggregateWroteLast [countRows] "n" := ⟨_, rfl⟩
  exact Bool.false_ne_true (hright.2 hlast)

end PlotGrammar
