import PlotGrammar.Proofs.Results
import PlotGrammar.Proofs.Table.Fields

/-! # Who wrote a field

  A run keeps two lists of names from step to step: the fields that bin steps
  wrote and the fields that aggregates wrote. This module says what the lists
  mean in terms of the steps alone.

  - `AggregateWroteLast` and `BinWroteLast` look at the last step that writes
    a field.
  - `RemainsBinned` says that a bin step wrote a field and no later aggregate
    reduced it into another field.
  - `Tracks` links both lists to these. One step keeps it (`Tracks.next`), so
    a run does (`Tracks.foldlM`).
-/

namespace PlotGrammar

/-! ### Histories -/

/-- The last of some steps that writes a field. -/
def lastWriter? (steps : List Step) (field : String) : Option Step :=
  (steps.filter fun step => step.out == field).getLast?

/-- The last step that writes a field is a bin step. -/
def BinWroteLast (steps : List Step) (field : String) : Prop :=
  ∃ step, lastWriter? steps field = some (.bin step)

/-- The last step that writes a field is an aggregate. -/
def AggregateWroteLast (steps : List Step) (field : String) : Prop :=
  ∃ step, lastWriter? steps field = some (.aggregate step)

/-- A bin step writes a field, and no aggregate after it reduces the field
    into another one. Writing over the field does not count. -/
def RemainsBinned (steps : List Step) (field : String) : Prop :=
  ∃ before step after, steps = before ++ Step.bin step :: after ∧ step.out = field ∧
    ∀ reduction, Step.aggregate reduction ∈ after → reduction.field = some field →
      reduction.out = field

/-! ### One more step -/

theorem lastWriter?_append (steps later : List Step) (field : String) :
    lastWriter? (steps ++ later) field =
      (lastWriter? later field).or (lastWriter? steps field) := by
  rw [lastWriter?, List.filter_append, List.getLast?_append]
  rfl

theorem lastWriter?_snoc (steps : List Step) (step : Step) (field : String) :
    lastWriter? (steps ++ [step]) field =
      if step.out = field then some step else lastWriter? steps field := by
  rw [lastWriter?_append]
  by_cases h : step.out = field
  · simp [lastWriter?, h]
  · simp [lastWriter?, h]

/-- A step of some kind is the last one to write its output. -/
theorem exists_lastWriter?_snoc {α : Type} {kind : α → Step} {steps : List Step} {field : String}
    (step : α) :
    (∃ a, lastWriter? (steps ++ [kind step]) field = some (kind a)) ↔
      (kind step).out = field ∨ ∃ a, lastWriter? steps field = some (kind a) := by
  rw [lastWriter?_snoc]
  by_cases h : (kind step).out = field
  · rw [if_pos h]
    exact iff_of_true ⟨step, rfl⟩ (.inl h)
  · rw [if_neg h, or_iff_right h]

/-- After a step of another kind, no step of the kind is the last one to write
    the output. -/
theorem exists_lastWriter?_snoc_of_ne {α : Type} {kind : α → Step} {steps : List Step} {step : Step}
    {field : String} (hother : ∀ a, step ≠ kind a) :
    (∃ a, lastWriter? (steps ++ [step]) field = some (kind a)) ↔
      step.out ≠ field ∧ ∃ a, lastWriter? steps field = some (kind a) := by
  rw [lastWriter?_snoc]
  by_cases h : step.out = field
  · rw [if_pos h]
    exact iff_of_false (fun ⟨a, ha⟩ => hother a (Option.some.inj ha)) fun hand => hand.1 h
  · rw [if_neg h, and_iff_right h]

theorem aggregateWroteLast_bin {steps : List Step} {step : BinStep} {field : String} :
    AggregateWroteLast (steps ++ [.bin step]) field ↔
      step.out ≠ field ∧ AggregateWroteLast steps field :=
  exists_lastWriter?_snoc_of_ne nofun

theorem aggregateWroteLast_aggregate {steps : List Step} {step : AggregateStep} {field : String} :
    AggregateWroteLast (steps ++ [.aggregate step]) field ↔
      step.out = field ∨ AggregateWroteLast steps field :=
  exists_lastWriter?_snoc step

theorem binWroteLast_bin {steps : List Step} {step : BinStep} {field : String} :
    BinWroteLast (steps ++ [.bin step]) field ↔ step.out = field ∨ BinWroteLast steps field :=
  exists_lastWriter?_snoc step

theorem binWroteLast_aggregate {steps : List Step} {step : AggregateStep} {field : String} :
    BinWroteLast (steps ++ [.aggregate step]) field ↔
      step.out ≠ field ∧ BinWroteLast steps field :=
  exists_lastWriter?_snoc_of_ne nofun

/-- A field has one last writer. -/
theorem not_binWroteLast_of_aggregateWroteLast {steps : List Step} {field : String}
    (h : AggregateWroteLast steps field) : ¬ BinWroteLast steps field := by
  intro ⟨bin, hbin⟩
  obtain ⟨aggregate, haggregate⟩ := h
  rw [hbin] at haggregate
  cases haggregate

/-- A field that remains binned was written last by a bin step or
    by an aggregate. -/
theorem RemainsBinned.wroteLast {steps : List Step} {field : String}
    (h : RemainsBinned steps field) :
    BinWroteLast steps field ∨ AggregateWroteLast steps field := by
  obtain ⟨before, step, after, rfl, hout, -⟩ := h
  have hmem : Step.bin step ∈ (before ++ Step.bin step :: after).filter (·.out == field) := by
    rw [List.mem_filter]
    exact ⟨by simp, beq_iff_eq.2 hout⟩
  -- The bin step writes the field, so there is a last writer.
  cases hlast : lastWriter? (before ++ Step.bin step :: after) field with
  | none =>
    rw [lastWriter?, List.getLast?_eq_none_iff] at hlast
    rw [hlast] at hmem
    cases hmem
  | some last =>
    cases last with
    | bin last => exact .inl ⟨last, hlast⟩
    | aggregate last => exact .inr ⟨last, hlast⟩

theorem not_remainsBinned_nil (field : String) : ¬ RemainsBinned [] field := by
  intro ⟨before, step, after, h, _⟩
  exact absurd h.symm (by simp)

/-- A bin step adds its output to the fields that remain binned. -/
theorem remainsBinned_bin {steps : List Step} {step : BinStep} {field : String} :
    RemainsBinned (steps ++ [.bin step]) field ↔ step.out = field ∨ RemainsBinned steps field := by
  constructor
  · intro ⟨before, writer, after, hsplit, hout, hkept⟩
    -- Either the new step is the writer, or the writer came before.
    rcases List.eq_nil_or_concat' after with rfl | ⟨after, last, rfl⟩
    · have hlast := (List.append_inj' hsplit rfl).2
      cases hlast
      exact .inl hout
    · rw [← List.cons_append, ← List.append_assoc] at hsplit
      have hfront := (List.append_inj' hsplit rfl).1
      exact .inr ⟨before, writer, after, hfront, hout, fun reduction hmem =>
        hkept reduction (List.mem_append_left _ hmem)⟩
  · intro h
    rcases h with hout | ⟨before, writer, after, rfl, hout, hkept⟩
    · exact ⟨steps, step, [], rfl, hout, fun _ hmem => by cases hmem⟩
    · refine ⟨before, writer, after ++ [.bin step], by simp, hout, fun reduction hmem => ?_⟩
      refine hkept reduction ?_
      simpa using hmem

/-- An aggregate takes away the field that it reduces into another one. -/
theorem remainsBinned_aggregate {steps : List Step} {step : AggregateStep} {field : String} :
    RemainsBinned (steps ++ [.aggregate step]) field ↔
      RemainsBinned steps field ∧ (step.field = some field → step.out = field) := by
  constructor
  · intro ⟨before, writer, after, hsplit, hout, hkept⟩
    rcases List.eq_nil_or_concat' after with rfl | ⟨after, last, rfl⟩
    · have hlast := (List.append_inj' hsplit rfl).2
      cases hlast
    · rw [← List.cons_append, ← List.append_assoc] at hsplit
      obtain ⟨hfront, hlast⟩ := List.append_inj' hsplit rfl
      cases hlast
      refine ⟨⟨before, writer, after, hfront, hout, fun reduction hmem => ?_⟩, ?_⟩
      · exact hkept reduction (List.mem_append_left _ hmem)
      · exact hkept step (by simp)
  · intro ⟨⟨before, writer, after, hsplit, hout, hkept⟩, hstep⟩
    subst hsplit
    refine ⟨before, writer, after ++ [.aggregate step], by simp, hout, fun reduction hmem => ?_⟩
    rw [List.mem_append, List.mem_singleton] at hmem
    rcases hmem with hmem | heq
    · exact hkept reduction hmem
    · cases heq
      exact hstep

/-! ### States -/

namespace Pipeline

@[simp] theorem mem_withName {names : List String} {name other : String} :
    other ∈ withName names name ↔ other ∈ names ∨ other = name := by
  unfold withName
  by_cases h : names.contains name = true
  · rw [if_pos h]
    constructor
    · exact Or.inl
    · intro hmem
      rcases hmem with hmem | heq
      · exact hmem
      · rw [heq]
        exact List.contains_iff_mem.1 h
  · rw [if_neg h, List.mem_append, List.mem_singleton]

/-- The rule for a group key, as far as a step itself decides it. -/
theorem mayGroup_iff {t : Table} {step : AggregateStep} {field : String} :
    mayGroup t step field = true ↔
      t.hasField field = true ∧ field ≠ step.out ∧ step.field ≠ some field := by
  simp only [mayGroup, Bool.and_eq_true, bne_iff_ne]
  exact ⟨fun ⟨⟨hout, hfield⟩, htable⟩ => ⟨htable, hout, hfield⟩,
    fun ⟨htable, hout, hfield⟩ => ⟨⟨hout, hfield⟩, htable⟩⟩

/-- What the inferred grouping consists of. -/
theorem mem_inferredGroupBy {s : State} {step : AggregateStep} {dimensions : List String}
    {field : String} :
    field ∈ inferredGroupBy s step dimensions ↔ mayGroup s.table step field = true ∧
      (field ∈ s.binned ∨ field ∈ dimensions ∧ field ∉ s.aggregated) := by
  simp only [inferredGroupBy, List.mem_eraseDups, List.mem_filter, List.mem_append,
    Bool.not_eq_true', List.contains_eq_mem, decide_eq_false_iff_not]
  exact and_comm

/-- A group key is a field of the table that is reduced. -/
theorem hasField_of_mem_inferredGroupBy {s : State} {step : AggregateStep}
    {dimensions : List String} {field : String} (h : field ∈ inferredGroupBy s step dimensions) :
    s.table.hasField field = true :=
  (mayGroup_iff.1 (mem_inferredGroupBy.1 h).1).1

/-- What a bin step can do to a state. -/
theorem exists_of_next_bin {s s' : State} {defaultMaxBins : Nat} {dimensions : List String}
    {step : BinStep} (h : s.next defaultMaxBins dimensions (.bin step) = .ok s') :
    ∃ labels, s' = { s with
      table := s.table.withColumn step.out labels
      binned := withName s.binned step.out
      aggregated := s.aggregated.filter (· != step.out) } := by
  rw [State.next, bind_eq_ok_iff] at h
  obtain ⟨table, htable, h⟩ := h
  obtain ⟨labels, rfl⟩ := Table.exists_of_binned_eq_ok htable
  cases h
  exact ⟨labels, rfl⟩

/-- What an aggregate can do to a state. -/
theorem exists_of_next_aggregate {s s' : State} {defaultMaxBins : Nat} {dimensions : List String}
    {step : AggregateStep} (h : s.next defaultMaxBins dimensions (.aggregate step) = .ok s') :
    ∃ table, table.fields = inferredGroupBy s step dimensions ++ [step.out] ∧ s' = {
      table := table
      groupBy := inferredGroupBy s step dimensions
      binned := s.binned.filter table.hasField
      aggregated := withName (s.aggregated.filter table.hasField) step.out
      anyAggregate := true } := by
  rw [State.next, bind_eq_ok_iff] at h
  obtain ⟨table, htable, h⟩ := h
  obtain ⟨f, input, -, -, rfl⟩ := Table.exists_of_aggregated_eq_ok htable
  cases h
  exact ⟨_, rfl, rfl⟩

/-! ### What the lists of a state mean -/

/-- A state holds what the steps that led to it say. -/
structure Tracks (done : List Step) (s : State) : Prop where
  /-- The aggregated fields are those of the table that an aggregate wrote last. -/
  mem_aggregated : ∀ field,
    field ∈ s.aggregated ↔ s.table.hasField field = true ∧ AggregateWroteLast done field
  /-- The binned fields are those that remain binned. -/
  mem_binned : ∀ field, field ∈ s.binned ↔ RemainsBinned done field
  /-- Binned fields are in the table. -/
  hasField_of_mem : ∀ field, field ∈ s.binned → s.table.hasField field = true
  /-- A field of the table that a bin step wrote last is binned. -/
  mem_of_binWroteLast : ∀ field,
    s.table.hasField field = true → BinWroteLast done field → field ∈ s.binned

namespace Tracks

variable {done : List Step} {s s' : State} {defaultMaxBins : Nat} {dimensions : List String}

/-- Before the first step nothing is written. -/
theorem initial (t : Table) : Tracks [] (State.initial t) where
  mem_aggregated field := by simp [State.initial, AggregateWroteLast, lastWriter?]
  mem_binned field := by simp [State.initial, not_remainsBinned_nil]
  hasField_of_mem field := by simp [State.initial]
  mem_of_binWroteLast field := by simp [BinWroteLast, lastWriter?]

theorem next_bin {step : BinStep} (h : Tracks done s)
    (hnext : s.next defaultMaxBins dimensions (.bin step) = .ok s') :
    Tracks (done ++ [.bin step]) s' := by
  obtain ⟨labels, rfl⟩ := exists_of_next_bin hnext
  refine ⟨fun field => ?_, fun field => ?_, fun field => ?_, fun field => ?_⟩
  · rw [List.mem_filter, h.mem_aggregated, aggregateWroteLast_bin, Table.hasField_withColumn,
      bne_iff_ne]
    constructor
    · intro ⟨⟨htable, hlast⟩, hne⟩
      exact ⟨.inr htable, hne.symm, hlast⟩
    · intro ⟨htable, hne, hlast⟩
      rcases htable with heq | htable
      · exact absurd heq.symm hne
      · exact ⟨⟨htable, hlast⟩, hne.symm⟩
  · rw [mem_withName, h.mem_binned, remainsBinned_bin, or_comm, eq_comm]
  · rw [mem_withName, Table.hasField_withColumn]
    intro hmem
    rcases hmem with hmem | heq
    · exact .inr (h.hasField_of_mem field hmem)
    · exact .inl heq
  · rw [mem_withName, binWroteLast_bin, Table.hasField_withColumn]
    intro htable hlast
    rcases htable with heq | htable
    · exact .inr heq
    · rcases hlast with heq | hlast
      · exact .inr heq.symm
      · exact .inl (h.mem_of_binWroteLast field htable hlast)

theorem next_aggregate {step : AggregateStep} (h : Tracks done s)
    (hnext : s.next defaultMaxBins dimensions (.aggregate step) = .ok s') :
    Tracks (done ++ [.aggregate step]) s' := by
  obtain ⟨table, hfields, rfl⟩ := exists_of_next_aggregate hnext
  have hnew : ∀ field, table.hasField field = true ↔
      field ∈ inferredGroupBy s step dimensions ∨ field = step.out := by
    intro field
    rw [Table.hasField_iff_mem, hfields, List.mem_append, List.mem_singleton]
  refine ⟨fun field => ?_, fun field => ?_, fun field => ?_, fun field => ?_⟩
  · rw [mem_withName, List.mem_filter, h.mem_aggregated, aggregateWroteLast_aggregate, hnew]
    constructor
    · intro hmem
      rcases hmem with ⟨⟨-, hlast⟩, htable⟩ | heq
      · exact ⟨htable, .inr hlast⟩
      · exact ⟨.inr heq, .inl heq.symm⟩
    · intro ⟨hmem, hlast⟩
      rcases hmem with hmem | heq
      · rcases hlast with heq | hlast
        · exact .inr heq.symm
        · exact .inl ⟨⟨hasField_of_mem_inferredGroupBy hmem, hlast⟩, .inl hmem⟩
      · exact .inr heq
  · -- A binned field is a key unless the step reduces it or writes over it.
    rw [List.mem_filter, remainsBinned_aggregate, ← h.mem_binned, hnew]
    refine and_congr_right fun hbinned => ?_
    rw [mem_inferredGroupBy, mayGroup_iff]
    constructor
    · intro hkey
      rcases hkey with ⟨⟨-, -, hfield⟩, -⟩ | heq
      · exact fun hreduced => absurd hreduced hfield
      · exact fun _ => heq.symm
    · intro hreduced
      by_cases heq : field = step.out
      · exact .inr heq
      · exact .inl ⟨⟨h.hasField_of_mem field hbinned, heq,
          fun hfield => heq (hreduced hfield).symm⟩, .inl hbinned⟩
  · exact fun hmem => (List.mem_filter.1 hmem).2
  · rw [hnew, binWroteLast_aggregate, List.mem_filter, hnew]
    intro htable ⟨hne, hlast⟩
    rcases htable with hmem | heq
    · have htable := hasField_of_mem_inferredGroupBy hmem
      exact ⟨h.mem_of_binWroteLast field htable hlast, .inl hmem⟩
    · exact absurd heq.symm hne

/-- One step keeps the meaning of the lists. -/
theorem next {step : Step} (h : Tracks done s)
    (hnext : s.next defaultMaxBins dimensions step = .ok s') : Tracks (done ++ [step]) s' := by
  cases step with
  | bin step => exact h.next_bin hnext
  | aggregate step => exact h.next_aggregate hnext

/-- So does a run. -/
theorem foldlM {steps : List Step} (h : Tracks done s)
    (hrun : steps.foldlM (State.next defaultMaxBins dimensions) s = .ok s') :
    Tracks (done ++ steps) s' := by
  -- Steps move one by one from those to come to those done.
  induction steps generalizing done s with
  | nil =>
    cases hrun
    rw [List.append_nil]
    exact h
  | cons step steps ih =>
    rw [List.foldlM_cons, bind_eq_ok_iff] at hrun
    obtain ⟨mid, hnext, hrun⟩ := hrun
    have hall := ih (h.next hnext) hrun
    rwa [List.append_assoc, List.singleton_append] at hall

end Tracks

/-! ### Runs -/

/-- A run succeeds exactly if all of its steps do. -/
theorem run_eq_ok_iff {defaultMaxBins : Nat} {t : Table} {steps : List Step}
    {dimensions : List String} {o : Outcome} :
    run defaultMaxBins t steps dimensions = .ok o ↔
      ∃ s, steps.foldlM (State.next defaultMaxBins dimensions) (State.initial t) = .ok s ∧
        o = s.outcome := by
  rw [run, bind_eq_ok_iff]
  constructor
  · intro ⟨s, hs, ho⟩
    cases ho
    exact ⟨s, hs, rfl⟩
  · intro ⟨s, hs, ho⟩
    rw [ho]
    exact ⟨s, hs, rfl⟩

/-- The aggregated fields of an outcome are those of its table that an
    aggregate wrote last. -/
theorem mem_aggregated_of_run {defaultMaxBins : Nat} {t : Table} {steps : List Step}
    {dimensions : List String} {o : Outcome} (h : run defaultMaxBins t steps dimensions = .ok o)
    (field : String) :
    field ∈ o.aggregated ↔ o.table.hasField field = true ∧ AggregateWroteLast steps field := by
  obtain ⟨s, hs, rfl⟩ := run_eq_ok_iff.1 h
  exact ((Tracks.initial t).foldlM hs).mem_aggregated field

end Pipeline

end PlotGrammar
