import PlotGrammar.Proofs.Lists
import PlotGrammar.Proofs.Pipeline.Histories

/-! # What an aggregate groups by

  The grouping of an aggregate is meant to be the fields that tell rows apart
  and are not themselves results: what a bin step wrote last, and the
  dimensions that no aggregate wrote last (`IsGroupKey`).

  A run follows this rule but for one kind of field. When an aggregate writes
  over a binned field, the run still takes the field for binned, and the next
  aggregate groups by it (`IsStaleKey`). `mem_groupBy_iff` says that these are
  all the fields there are, and that the rule holds for all but the stale
  ones.
-/

namespace PlotGrammar

namespace Pipeline

/-! ### The rule -/

/-- The rule for a group key of an aggregate over a table that some steps led
    to. -/
def IsGroupKey (t : Table) (done : List Step) (step : AggregateStep) (dimensions : List String)
    (field : String) : Prop :=
  t.hasField field = true ∧ field ≠ step.out ∧ step.field ≠ some field ∧
    (BinWroteLast done field ∨ field ∈ dimensions ∧ ¬ AggregateWroteLast done field)

/-- A field that an aggregate wrote last and that still counts as binned. -/
def IsStaleKey (t : Table) (done : List Step) (step : AggregateStep) (field : String) : Prop :=
  t.hasField field = true ∧ field ≠ step.out ∧ step.field ≠ some field ∧
    RemainsBinned done field ∧ AggregateWroteLast done field

/-- A stale key is against the rule. -/
theorem not_isGroupKey_of_isStaleKey {t : Table} {done : List Step} {step : AggregateStep}
    {dimensions : List String} {field : String} (h : IsStaleKey t done step field) :
    ¬ IsGroupKey t done step dimensions field := by
  obtain ⟨-, -, -, -, hlast⟩ := h
  intro ⟨_, _, _, hrule⟩
  rcases hrule with hbin | ⟨-, hno⟩
  · exact not_binWroteLast_of_aggregateWroteLast hlast hbin
  · exact hno hlast

/-! ### One step -/

/-- In a state that holds what the steps so far say, the inferred grouping
    follows the rule but for stale keys. -/
theorem Tracks.mem_inferredGroupBy_iff {done : List Step} {s : State} (h : Tracks done s)
    (step : AggregateStep) (dimensions : List String) (field : String) :
    field ∈ inferredGroupBy s step dimensions ↔
      IsGroupKey s.table done step dimensions field ∨ IsStaleKey s.table done step field := by
  rw [mem_inferredGroupBy, mayGroup_iff, h.mem_aggregated]
  constructor
  · intro ⟨⟨htable, hout, hfield⟩, hcandidate⟩
    rcases hcandidate with hbinned | ⟨hdimension, hno⟩
    · -- What is binned was last written by a bin step, or it is stale.
      have hremains := (h.mem_binned field).1 hbinned
      rcases hremains.wroteLast with hlast | hlast
      · exact .inl ⟨htable, hout, hfield, .inl hlast⟩
      · exact .inr ⟨htable, hout, hfield, hremains, hlast⟩
    · exact .inl ⟨htable, hout, hfield, .inr ⟨hdimension, fun hlast => hno ⟨htable, hlast⟩⟩⟩
  · intro hkey
    rcases hkey with ⟨htable, hout, hfield, hlast | ⟨hdimension, hno⟩⟩ |
      ⟨htable, hout, hfield, hremains, -⟩
    · exact ⟨⟨htable, hout, hfield⟩, .inl (h.mem_of_binWroteLast field htable hlast)⟩
    · exact ⟨⟨htable, hout, hfield⟩, .inr ⟨hdimension, fun hmem => hno hmem.2⟩⟩
    · exact ⟨⟨htable, hout, hfield⟩, .inl ((h.mem_binned field).2 hremains)⟩

/-! ### Every aggregate of a run -/

/-- A run that reaches an aggregate has run the steps before it, and the
    grouping of the run up to there is the one inferred for it. -/
theorem exists_of_run_aggregate {defaultMaxBins : Nat} {t : Table} {done rest : List Step}
    {step : AggregateStep} {dimensions : List String} {final : Outcome}
    (h : run defaultMaxBins t (done ++ .aggregate step :: rest) dimensions = .ok final) :
    ∃ s s', done.foldlM (State.next defaultMaxBins dimensions) (State.initial t) = .ok s ∧
      s.next defaultMaxBins dimensions (.aggregate step) = .ok s' ∧
      run defaultMaxBins t (done ++ [.aggregate step]) dimensions = .ok s'.outcome := by
  obtain ⟨last, hlast, -⟩ := run_eq_ok_iff.1 h
  rw [List.foldlM_append, bind_eq_ok_iff] at hlast
  obtain ⟨s, hs, hlast⟩ := hlast
  rw [List.foldlM_cons, bind_eq_ok_iff] at hlast
  obtain ⟨s', hs', -⟩ := hlast
  refine ⟨s, s', hs, hs', run_eq_ok_iff.2 ⟨s', ?_, rfl⟩⟩
  rw [List.foldlM_append, hs]
  exact bind_eq_ok_iff.2 ⟨s, rfl, bind_eq_ok_iff.2 ⟨s', hs', rfl⟩⟩

/-- At every aggregate of a run the grouping has no repetitions, makes up the
    fields of the reduced table with the result, and consists of the fields
    that follow the rule and of the stale ones. So the rule holds exactly for
    the fields that are not stale. -/
theorem mem_groupBy_iff {defaultMaxBins : Nat} {t : Table} {done rest : List Step}
    {step : AggregateStep} {dimensions : List String} {final : Outcome}
    (h : run defaultMaxBins t (done ++ .aggregate step :: rest) dimensions = .ok final) :
    ∃ before used, run defaultMaxBins t done dimensions = .ok before ∧
      run defaultMaxBins t (done ++ [.aggregate step]) dimensions = .ok used ∧
      used.table.fields = used.groupBy ++ [step.out] ∧ used.groupBy.Nodup ∧
      ∀ field,
        (field ∈ used.groupBy ↔ IsGroupKey before.table done step dimensions field ∨
          IsStaleKey before.table done step field) ∧
        ((field ∈ used.groupBy ↔ IsGroupKey before.table done step dimensions field) ↔
          ¬ IsStaleKey before.table done step field) := by
  obtain ⟨s, s', hs, hs', hused⟩ := exists_of_run_aggregate h
  have hmem := ((Tracks.initial t).foldlM hs).mem_inferredGroupBy_iff step dimensions
  obtain ⟨table, hfields, rfl⟩ := exists_of_next_aggregate hs'
  refine ⟨s.outcome, _, run_eq_ok_iff.2 ⟨s, hs, rfl⟩, hused, hfields, nodup_eraseDups _, ?_⟩
  intro field
  refine ⟨hmem field, ?_⟩
  show (field ∈ inferredGroupBy s step dimensions ↔ _) ↔ _
  rw [hmem field]
  constructor
  · intro hrule hstale
    exact not_isGroupKey_of_isStaleKey hstale (hrule.1 (.inr hstale))
  · intro hfresh
    exact ⟨fun hkey => hkey.resolve_right hfresh, Or.inl⟩

/-- Rows with a number and a name. -/
def measured : Table := ⟨["foo", "baz"], [[.num 1.0, .text "A"], [.num 5.0, .text "B"]]⟩

/-- A count by buckets and names follows the rule. -/
theorem mem_groupBy_iff_of_histogram :
    ∃ before used,
      run 10 measured [.bin ⟨"foo", "bucket", none, none⟩] ["baz", "n"] = .ok before ∧
      run 10 measured ([.bin ⟨"foo", "bucket", none, none⟩] ++ [.aggregate ⟨"count", none, "n"⟩])
        ["baz", "n"] = .ok used ∧
      ∀ field, field ∈ used.groupBy ↔
        IsGroupKey before.table [.bin ⟨"foo", "bucket", none, none⟩] ⟨"count", none, "n"⟩
            ["baz", "n"] field ∨
          IsStaleKey before.table [.bin ⟨"foo", "bucket", none, none⟩] ⟨"count", none, "n"⟩
            field := by
  have hruns : (run 10 measured
      ([.bin ⟨"foo", "bucket", none, none⟩] ++ [.aggregate ⟨"count", none, "n"⟩])
      ["baz", "n"]).toOption.isSome = true := by decide +kernel
  obtain ⟨final, hfinal⟩ := Option.isSome_iff_exists.1 hruns
  obtain ⟨before, used, hbefore, hused, -, -, hmem⟩ :=
    mem_groupBy_iff (eq_ok_of_mem_toOption hfinal)
  exact ⟨before, used, hbefore, hused, fun field => (hmem field).1⟩

/-- A count that is written over the buckets is a group key of the next count,
    against the rule. -/
theorem groupBy_of_overwritten_buckets :
    ∃ before used,
      run 10 ⟨["foo"], [[.num 1.0], [.num 2.0]]⟩
        [.bin ⟨"foo", "b", none, none⟩, .aggregate ⟨"count", none, "b"⟩] [] = .ok before ∧
      run 10 ⟨["foo"], [[.num 1.0], [.num 2.0]]⟩
        ([.bin ⟨"foo", "b", none, none⟩, .aggregate ⟨"count", none, "b"⟩] ++
          [.aggregate ⟨"count", none, "c"⟩]) [] = .ok used ∧
      used.groupBy = ["b"] ∧
      ¬ ∀ field, field ∈ used.groupBy ↔
        IsGroupKey before.table
          [.bin ⟨"foo", "b", none, none⟩, .aggregate ⟨"count", none, "b"⟩] ⟨"count", none, "c"⟩ []
          field := by
  have hbefore : (run 10 ⟨["foo"], [[.num 1.0], [.num 2.0]]⟩
      [.bin ⟨"foo", "b", none, none⟩, .aggregate ⟨"count", none, "b"⟩] []).toOption.isSome = true := by
    decide +kernel
  have hused : ∃ used ∈ (run 10 ⟨["foo"], [[.num 1.0], [.num 2.0]]⟩
      ([.bin ⟨"foo", "b", none, none⟩, .aggregate ⟨"count", none, "b"⟩] ++
        [.aggregate ⟨"count", none, "c"⟩]) []).toOption, used.groupBy = ["b"] := by
    decide +kernel
  obtain ⟨before, hbefore⟩ := Option.isSome_iff_exists.1 hbefore
  obtain ⟨used, hused, hkeys⟩ := hused
  refine ⟨before, used, eq_ok_of_mem_toOption hbefore, eq_ok_of_mem_toOption hused, hkeys,
    fun hrule => ?_⟩
  have hmem : "b" ∈ used.groupBy := by
    rw [hkeys]
    exact List.mem_singleton.2 rfl
  obtain ⟨-, -, -, ⟨step, hlast⟩ | ⟨hdimension, -⟩⟩ := (hrule "b").1 hmem
  · -- The last step that writes the field is the first count.
    cases hlast
  · cases hdimension

end Pipeline

end PlotGrammar
