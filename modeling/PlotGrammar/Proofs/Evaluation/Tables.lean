import PlotGrammar.Proofs.Evaluation.Calls
import PlotGrammar.Proofs.Table.Rectangular

/-! # The tables of a program

  A program makes a table of fields, columns or records, and calls operations
  on it. `Table.Made` holds of the tables that it comes to. Compiling makes no
  others: the table of every node, and so of every leaf of a scene, is one that
  calls lead to (`Table.Made.of_reached`).

  All of them are rectangular, so wherever the cell of a row is taken at the
  position of a field, there is one (`aligned_of_made`).
-/

namespace PlotGrammar

/-! ### Calls -/

/-- A call on a table. -/
inductive TableCall where
  /-- Add a row. -/
  | pushRow (row : List Cell)
  /-- Set a field in every row. -/
  | withColumn (name : String) (cells : List Cell)
  /-- Pick the rows of a cell. -/
  | filterEq (field : String) (cell : Cell)
  /-- Run steps. -/
  | run (maxBins : Nat) (steps : List Step) (dimensions : List String)

/-- The table that a call gives. -/
def TableCall.perform (t : Table) : TableCall → Except Failure Table
  | .pushRow row => t.pushRow row
  | .withColumn name cells => .ok (t.withColumn name cells)
  | .filterEq field cell => .ok (t.filterEq field cell)
  | .run maxBins steps dimensions => do
    let outcome ← Pipeline.run maxBins t steps dimensions
    return outcome.table

namespace Table

/-- The table at hand after a call: the one that it gives, or still the same if
    the call is refused. -/
def after (t : Table) (call : TableCall) : Table :=
  match call.perform t with
  | .ok t' => t'
  | .error _ => t

/-- The tables that calls lead to. -/
inductive Made : Table → Prop where
  | ofFields (fields : List String) : Made (ofFields fields)
  | ofColumns (columns : List (String × List Cell)) : Made (ofColumns columns)
  | read {codec : Json.Codec} {text : String} {t : Table} (h : read codec text = .ok t) : Made t
  | call {t : Table} (h : Made t) (call : TableCall) : Made (t.after call)

/-- The rows of a table fit its fields, so that at the position of a field
    every row has a cell. -/
structure Aligned (t : Table) : Prop where
  /-- Every row has as many cells as there are fields. -/
  rectangular : t.Rectangular
  /-- Every row has a cell at the position of a field. -/
  covers : ∀ field, t.Covers field

theorem Rectangular.aligned {t : Table} (h : t.Rectangular) : t.Aligned := ⟨h, h.covers⟩

/-- A call keeps the rows aligned. -/
theorem Rectangular.after {t : Table} (h : t.Rectangular) (call : TableCall) :
    (t.after call).Rectangular := by
  unfold Table.after
  cases hcall : call.perform t with
  | error e => exact h
  | ok t' =>
    cases call with
    | pushRow row => exact h.of_pushRow hcall
    | withColumn name cells =>
      cases hcall
      exact h.withColumn name cells
    | filterEq field cell =>
      cases hcall
      exact h.filterEq field cell
    | run maxBins steps dimensions =>
      obtain ⟨outcome, hrun, hcall⟩ := bind_eq_ok_iff.1 hcall
      cases hcall
      obtain ⟨s, hs, rfl⟩ := Pipeline.run_eq_ok_iff.1 hrun
      exact Pipeline.rectangular_of_foldlM h hs

namespace Made

variable {t : Table}

theorem rectangular (h : t.Made) : t.Rectangular := by
  induction h with
  | ofFields fields => exact rectangular_ofFields fields
  | ofColumns columns => exact rectangular_ofColumns columns
  | read h => exact rectangular_read h
  | call _ call ih => exact ih.after call

/-! ### Evaluation -/

/-- The steps of a node lead to such a table. -/
theorem of_prepare {config : Config} {inherited : Channels} {head : ViewHead}
    {o : Pipeline.Outcome} {e : ResolvedEncoding} (h : t.Made)
    (hprepare : prepare config t inherited head = .ok (o, e)) : o.table.Made := by
  have hrun := (prepare_eq_ok_iff.1 hprepare).1
  have hcall := h.call (.run config.maxBins head.steps (inherit inherited head.encoding).fieldNames)
  simp only [Table.after, TableCall.perform, hrun] at hcall
  exact hcall

/-- The tables that a node hands on are made by steps and by picking the rows
    of panels. -/
theorem of_makes {config : Config} {c c' : Call} (h : c.table.Made) (hmakes : c.Makes config c') :
    c'.table.Made := by
  cases hmakes with
  | nested hprepare _ => exact h.of_prepare hprepare
  | @panel _ _ _ _ _ _ _ field _ cell hprepare _ _ _ =>
    exact (h.of_prepare hprepare).call (.filterEq field cell)
  | member hprepare _ => exact h.of_prepare hprepare

/-- Every node of a view is evaluated over such a table. -/
theorem of_reached {config : Config} {v : View} {c : Call} (h : t.Made)
    (hc : Reached config v t c) : c.table.Made := by
  induction hc with
  | root => exact h
  | next _ hmakes ih => exact ih.of_makes hmakes

/-- Every leaf of a scene has such a table. -/
theorem of_mem_leaves {config : Config} {v : View} {scene : Scene} {leaf : MarkLeaf} (h : t.Made)
    (hscene : compile config v t = .ok scene) (hleaf : leaf ∈ scene.leaves) : leaf.table.Made := by
  obtain ⟨c, hc, hrun⟩ := exists_reached_of_mem_leaves hscene hleaf
  obtain ⟨head, o, -, -, hprepare, htable, -⟩ := Call.exists_of_run_eq_marks hrun
  rw [← htable]
  exact (h.of_reached hc).of_prepare hprepare

end Made

/-- A table that calls lead to is aligned, and so is every table whose rows are
    looked into on the way: between the steps of a run, where moreover all
    group keys of an aggregate are fields, at the nodes that compiling a view
    comes to, and at the leaves of a scene. A row that does not fit is refused
    and leaves the table as it was. -/
theorem aligned_of_made {t : Table} (h : t.Made) :
    t.Aligned ∧
      (∀ row, row.length ≠ t.fields.length →
        t.pushRow row = .error (.rowLength t.fields.length row.length) ∧
          t.after (.pushRow row) = t) ∧
      (∀ maxBins (steps : List Step) dimensions s,
        steps.foldlM (Pipeline.State.next maxBins dimensions) (Pipeline.State.initial t) = .ok s →
        s.table.Aligned ∧ ∀ step, ∀ field ∈ Pipeline.inferredGroupBy s step dimensions,
          s.table.hasField field = true) ∧
      (∀ config v c, Reached config v t c → c.table.Aligned ∧
        ∀ o e, prepare config c.table c.inherited c.view.head = .ok (o, e) → o.table.Aligned) ∧
      ∀ config v scene, compile config v t = .ok scene →
        ∀ leaf ∈ scene.leaves, leaf.table.Made ∧ leaf.table.Aligned := by
  refine ⟨h.rectangular.aligned, ?_, ?_, ?_, ?_⟩
  · intro row hrow
    have hrefused := pushRow_eq_error hrow
    refine ⟨hrefused, ?_⟩
    simp only [after, TableCall.perform, hrefused]
  · intro maxBins steps dimensions s hs
    refine ⟨(Pipeline.rectangular_of_foldlM h.rectangular hs).aligned, ?_⟩
    intro step field hmem
    exact Pipeline.hasField_of_mem_inferredGroupBy hmem
  · intro config v c hc
    have hmade := h.of_reached hc
    refine ⟨hmade.rectangular.aligned, fun o e hprepare => ?_⟩
    exact (hmade.of_prepare hprepare).rectangular.aligned
  · intro config v scene hscene leaf hleaf
    have hmade := h.of_mem_leaves hscene hleaf
    exact ⟨hmade, hmade.rectangular.aligned⟩

/-- The counts of the numbers in a table that has their name twice, with a
    shorter column of texts. -/
def numberCounts : Table :=
  (ofColumns [("n", [.num 1.0, .num 2.0, .num 1.0]), ("n", [.text "x"])]).after
    (.run 10 [.aggregate ⟨"count", none, "rows"⟩] ["n"])

/-- Only the first of the two columns counts, and a row of one cell does not
    fit. -/
theorem aligned_of_made_of_counts :
    numberCounts.Made ∧
      numberCounts.rows = [[.num 1.0, .num (Float.ofNat 2)], [.num 2.0, .num (Float.ofNat 1)]] ∧
      numberCounts.Aligned ∧ numberCounts.pushRow [.null] = .error (.rowLength 2 1) ∧
      numberCounts.after (.pushRow [.null]) = numberCounts := by
  have hmade : numberCounts.Made := (Made.ofColumns _).call _
  obtain ⟨haligned, hrefused, -⟩ := aligned_of_made hmade
  obtain ⟨herror, hsame⟩ := hrefused [.null] (by decide)
  exact ⟨hmade, rfl, haligned, herror, hsame⟩

end Table

end PlotGrammar
