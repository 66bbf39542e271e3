import PlotGrammar.Proofs.Pipeline.Outcomes
import PlotGrammar.Proofs.Pipeline.Panels
import PlotGrammar.Proofs.Table.Classes
import PlotGrammar.Proofs.Table.Rectangular

/-! # Group keys tell rows apart

  An aggregate writes one row for each of its groups, and no two groups have
  equal keys. So no two rows of its table have equal cells under the fields of
  its grouping (`Table.Keyed`). This remains so as long as no bin step writes
  over one of the fields: a bin step keeps the number of rows and all columns
  but its own (`Table.Keyed.widens`).

  `keyed_of_run` says this of a run whose last aggregate is given.
-/

namespace PlotGrammar

namespace Table

/-- No two rows have equal cells under all of some fields. -/
def Keyed (t : Table) (fields : List String) : Prop :=
  ∀ r s, r < t.height → s < t.height →
    (∀ field ∈ fields, (t.value? r field == t.value? s field) = true) → r = s

/-! ### Reduced tables -/

section

variable {t : Table} {groupBy : List String}

/-- A row of a reduced table has its key under the fields of the grouping. -/
theorem keyOf_reducedByKey (hnodup : groupBy.Nodup) {key : List Cell} (hkey : key ∈ t.keys groupBy)
    (f : AggregateFunction) (input : Option String) (out : String) (last : Cell) :
    (t.reducedByKey f input out groupBy).keyOf groupBy (key ++ [last]) = key := by
  have hlength := length_of_mem_keys hkey
  apply List.ext_getElem
  · rw [length_keyOf, hlength]
  · intro i hi hi'
    rw [length_keyOf] at hi
    have hposition : groupBy.findIdx? (· == groupBy[i]) = some i := by
      rw [List.findIdx?_eq_some_iff_getElem]
      refine ⟨hi, beq_self_eq_true _, fun j hj heq => ?_⟩
      have hsame : j = i := hnodup.getElem_inj_iff.1 (beq_iff_eq.1 heq)
      omega
    simp only [keyOf, List.getElem_map]
    rw [cellUnder_of_fieldIndex? (fieldIndex?_reducedByKey hposition f input out),
      cellAt_append_of_mem_keys hposition hkey, cellAt, List.getD_eq_getElem?_getD,
      List.getElem?_eq_getElem hi', Option.getD_some]

/-- The rows of a reduced table differ under the fields of the grouping. -/
theorem keyed_reducedByKey (hnodup : groupBy.Nodup) (f : AggregateFunction)
    (input : Option String) (out : String) :
    (t.reducedByKey f input out groupBy).Keyed groupBy := by
  intro r s hr hs hcells
  have hheight : (t.reducedByKey f input out groupBy).height = (t.keys groupBy).length :=
    List.length_map _
  rw [hheight] at hr hs
  have hfields : ∀ field ∈ groupBy, (t.reducedByKey f input out groupBy).hasField field = true :=
    fun field hmem => hasField_iff_mem.2 (List.mem_append_left _ hmem)
  have hrow : ∀ i (hi : i < (t.keys groupBy).length),
      (t.reducedByKey f input out groupBy).rows[i]? =
        some ((t.keys groupBy)[i] ++ [t.result f input groupBy (t.keys groupBy)[i]]) := by
    intro i hi
    rw [reducedByKey, List.getElem?_map, List.getElem?_eq_getElem hi, Option.map_some]
  -- Rows that are equal under the fields have equal keys, and the keys differ.
  rw [← keyOf_beq_iff_value? (rectangular_reducedByKey t f input out groupBy) hfields (hrow r hr)
    (hrow s hs), keyOf_reducedByKey hnodup (List.getElem_mem hr),
    keyOf_reducedByKey hnodup (List.getElem_mem hs)] at hcells
  have hkeys := List.pairwise_iff_getElem.1 (pairwise_keys t groupBy)
  rcases Nat.lt_trichotomy r s with hlt | heq | hlt
  · have hdiffers := hkeys r s hr hs hlt
    rw [BEq.comm, hcells] at hdiffers
    cases hdiffers
  · exact heq
  · have hdiffers := hkeys s r hs hr hlt
    rw [hcells] at hdiffers
    cases hdiffers

end

/-! ### Further columns -/

variable {t t' : Table} {outs : List String}

/-- Cells under other fields than those written are kept. -/
theorem Widens.value? (h : t.Widens t' outs) {name : String} (hname : name ∉ outs) {r : Nat}
    {cell : Cell} (hcell : t.value? r name = some cell) : t'.value? r name = some cell := by
  obtain ⟨position, hposition, hcell⟩ := Option.bind_eq_some_iff.1 hcell
  obtain ⟨hlt, hat, hbefore⟩ := List.findIdx?_eq_some_iff_getElem.1 hposition
  have hfield : t.fields[position]? = some name := by
    rw [List.getElem?_eq_getElem hlt, beq_iff_eq.1 hat]
  have hposition' : t'.fieldIndex? name = some position := by
    rw [fieldIndex?, h.fields, Pipeline.foldl_withName, List.findIdx?_append,
      show t.fields.findIdx? (· == name) = some position from hposition]
    rfl
  exact Option.bind_eq_some_iff.2
    ⟨position, hposition', h.cells position name hfield hname r cell hcell⟩

/-- Writing other columns does not make rows equal. -/
theorem Keyed.widens {fields : List String} (hkeyed : t.Keyed fields) (hrect : t.Rectangular)
    (hfields : ∀ field ∈ fields, t.hasField field = true) (h : t.Widens t' outs)
    (hkept : ∀ field ∈ fields, field ∉ outs) : t'.Keyed fields := by
  intro r s hr hs hcells
  rw [h.height] at hr hs
  refine hkeyed r s hr hs fun field hmem => ?_
  have hvalue : ∀ i, i < t.height → t'.value? i field = t.value? i field := by
    intro i hi
    have hcell := value?_eq_some hrect (List.getElem?_eq_getElem hi) (hfields field hmem)
    rw [hcell, h.value? (hkept field hmem) hcell]
  rw [← hvalue r hr, ← hvalue s hs]
  exact hcells field hmem

end Table

/-! ### Runs -/

namespace Pipeline

variable {defaultMaxBins : Nat} {dimensions : List String} {t : Table} {o : Outcome}

/-- The group keys of the last aggregate of a run tell the rows apart unless a
    bin step has written over one of them. -/
theorem keyed_of_run {before after : List Step} {step : AggregateStep}
    (hlast : ∀ later, .aggregate later ∉ after)
    (h : run defaultMaxBins t (before ++ .aggregate step :: after) dimensions = .ok o)
    (hkept : ∀ later ∈ after, later.out ∉ o.groupBy) :
    o.table.Keyed o.groupBy ∧ (o.groupBy = [] → o.table.height = 1) := by
  obtain ⟨s, reduced, -, hgroupBy, hreduced, hwidens⟩ := exists_reduced_of_run hlast h
  have hfields : ∀ field ∈ o.groupBy, s.table.hasField field = true := by
    intro field hmem
    rw [hgroupBy] at hmem
    exact hasField_of_mem_inferredGroupBy hmem
  have hnodup : o.groupBy.Nodup := (groupBy_of_run h).1
  obtain ⟨f, input, -, hinput, hkeys⟩ := Table.exists_of_aggregated_eq_ok hreduced
  rw [Table.reduced_eq_reducedByKey hfields hinput] at hkeys
  subst hkeys
  constructor
  · refine (Table.keyed_reducedByKey hnodup f step.field step.out).widens
      (Table.rectangular_reducedByKey _ _ _ _ _) ?_ hwidens ?_
    · intro field hmem
      exact Table.hasField_iff_mem.2 (List.mem_append_left _ hmem)
    · intro field hmem hwritten
      obtain ⟨later, hlater, rfl⟩ := List.mem_map.1 hwritten
      exact hkept later hlater hmem
  · intro hnil
    rw [hwidens.height, Table.height, Table.reducedByKey, List.length_map, hnil, Table.keys_nil]
    rfl

end Pipeline

end PlotGrammar
