import PlotGrammar.Proofs.Table.Partition

/-! # Reducing groups of rows

  An aggregate goes over the rows once and collects them into groups by their
  keys. What it comes to can be said without groups (`Table.reducedByKey`):

  - the keys are the different tuples of cells under the fields of the
    grouping, in order of first appearance (`Table.keys`),
  - the members of a key are the rows with the key, in their order
    (`Table.members`),
  - each key gives one row, with the reduced cells of its members.

  `aggregated_eq_reducedByKey` says that both are the same table. The counting
  functions come to whole numbers first (`AggregateFunction.whole?`); those of
  the groups add up to the rows of the table, and in each group the values
  that are null and those that are not add up to its rows.
-/

namespace PlotGrammar

/-! ### Whole numbers -/

/-- The whole number that a counting function comes to, before it is written
    as a double. -/
def AggregateFunction.whole? (f : AggregateFunction) (rows : Nat) (cells : List Cell) : Option Nat :=
  match f with
  | .count => some rows
  | .valid => some (cells.filter fun c => !c.isNull).length
  | .missing => some (cells.filter Cell.isNull).length
  | .distinct => some cells.eraseDups.length
  | _ => none

/-- The result of a counting function is its whole number. -/
theorem AggregateFunction.apply_eq_counted {f : AggregateFunction} {rows : Nat} {cells : List Cell}
    {n : Nat} (h : f.whole? rows cells = some n) : f.apply rows cells = counted n := by
  cases f with
  | count => cases h; rfl
  | valid => cases h; rfl
  | missing => cases h; rfl
  | distinct => cases h; rfl
  | _ => cases h

/-! ### Tuples of cells -/

namespace Cell

/-- Tuples are equal if their cells are, one by one. -/
theorem beq_list_iff_key {xs ys : List Cell} : (xs == ys) = true ↔ xs.map key = ys.map key := by
  induction xs generalizing ys with
  | nil =>
    cases ys with
    | nil => simp
    | cons y ys => simp
  | cons x xs ih =>
    cases ys with
    | nil => simp
    | cons y ys => rw [List.cons_beq_cons, Bool.and_eq_true, beq_iff_key, ih, List.map_cons,
        List.map_cons, List.cons.injEq]

instance : EquivBEq (List Cell) where
  rfl := beq_list_iff_key.2 rfl
  symm h := beq_list_iff_key.2 (beq_list_iff_key.1 h).symm
  trans h g := beq_list_iff_key.2 ((beq_list_iff_key.1 h).trans (beq_list_iff_key.1 g))

/-- Equal tuples have equal cells. -/
theorem cellAt_beq_cellAt {key other : List Cell} (h : (key == other) = true) (i : Nat) :
    (Table.cellAt key i == Table.cellAt other i) = true := by
  have hkeys : (key.map Cell.key)[i]? = (other.map Cell.key)[i]? := by
    rw [beq_list_iff_key.1 h]
  rw [List.getElem?_map, List.getElem?_map] at hkeys
  -- Both tuples end at the same position, and past it there is null.
  rw [beq_iff_key, Table.cellAt, Table.cellAt, List.getD_eq_getElem?_getD,
    List.getD_eq_getElem?_getD, ← Option.getD_map Cell.key, ← Option.getD_map Cell.key, hkeys]

end Cell

namespace Table

/-! ### Key by key -/

/-- The cell of a row under a field. -/
def cellUnder (t : Table) (row : List Cell) (field : String) : Cell :=
  match t.fieldIndex? field with
  | some position => cellAt row position
  | none => .null

/-- The cells of a row under the fields of a grouping. -/
def keyOf (t : Table) (groupBy : List String) (row : List Cell) : List Cell :=
  groupBy.map (t.cellUnder row)

/-- The different keys of the rows in order of first appearance. Without a
    grouping there is one key, even of no rows. -/
def keys (t : Table) (groupBy : List String) : List (List Cell) :=
  if groupBy = [] then [[]] else (t.rows.map (t.keyOf groupBy)).eraseDups

/-- The rows of a key. -/
def members (t : Table) (groupBy : List String) (key : List Cell) : List (List Cell) :=
  t.rows.filter fun row => t.keyOf groupBy row == key

/-- The cells under the field that is reduced, if there is one. -/
def inputs (t : Table) (field : Option String) (rows : List (List Cell)) : List Cell :=
  match field with
  | some name => rows.map (t.cellUnder · name)
  | none => []

/-- The reduced cell of the members of a key. -/
def result (t : Table) (f : AggregateFunction) (field : Option String) (groupBy : List String)
    (key : List Cell) : Cell :=
  let rows := t.members groupBy key
  f.apply rows.length (t.inputs field rows)

/-- The whole number that a counting function comes to for a key. -/
def whole? (t : Table) (f : AggregateFunction) (field : Option String) (groupBy : List String)
    (key : List Cell) : Option Nat :=
  let rows := t.members groupBy key
  f.whole? rows.length (t.inputs field rows)

/-- One row for each key: the key and its result. -/
def reducedByKey (t : Table) (f : AggregateFunction) (field : Option String) (out : String)
    (groupBy : List String) : Table :=
  ⟨groupBy ++ [out], (t.keys groupBy).map fun key => key ++ [t.result f field groupBy key]⟩

variable {t : Table} {groupBy : List String}

theorem cellUnder_of_fieldIndex? {field : String} {position : Nat}
    (h : t.fieldIndex? field = some position) (row : List Cell) :
    t.cellUnder row field = cellAt row position := by
  rw [cellUnder, h]

@[simp] theorem length_keyOf (row : List Cell) : (t.keyOf groupBy row).length = groupBy.length :=
  List.length_map _

@[simp] theorem length_inputs_some (name : String) (rows : List (List Cell)) :
    (t.inputs (some name) rows).length = rows.length :=
  List.length_map _

/-! ### Keys -/

/-- A key has a cell for every field of the grouping. -/
theorem length_of_mem_keys {key : List Cell} (h : key ∈ t.keys groupBy) :
    key.length = groupBy.length := by
  unfold keys at h
  split at h
  · next hnil =>
    rw [List.mem_singleton.1 h, hnil]
    rfl
  · obtain ⟨row, -, rfl⟩ := List.mem_map.1 (mem_of_mem_eraseDups h)
    exact length_keyOf row

/-- The keys differ. -/
theorem pairwise_keys (t : Table) (groupBy : List String) :
    (t.keys groupBy).Pairwise fun key other => (other == key) = false := by
  unfold keys
  split
  · exact List.pairwise_singleton _ _
  · exact pairwise_eraseDups _

/-- Without a grouping there is exactly one key. -/
theorem keys_nil (t : Table) : t.keys [] = [[]] := if_pos rfl

/-- With a grouping there is no key of no rows. -/
theorem keys_of_rows_eq_nil (hgroupBy : groupBy ≠ []) (hrows : t.rows = []) :
    t.keys groupBy = [] := by
  rw [keys, if_neg hgroupBy, hrows]
  rfl

/-- Every row is a member of the empty key. -/
theorem members_nil (t : Table) : t.members [] [] = t.rows :=
  List.filter_eq_self.2 fun _ _ => rfl

/-- Every row is a member of exactly one key. -/
theorem perm_members (t : Table) (groupBy : List String) :
    ((t.keys groupBy).flatMap (t.members groupBy)).Perm t.rows := by
  by_cases hgroupBy : groupBy = []
  · rw [hgroupBy, keys_nil, List.flatMap_singleton, members_nil]
  · rw [keys, if_neg hgroupBy]
    exact perm_fibers (t.keyOf groupBy) t.rows

/-- The groups have as many rows together as the table. -/
theorem sum_length_members (t : Table) (groupBy : List String) :
    ((t.keys groupBy).map fun key => (t.members groupBy key).length).sum = t.height := by
  rw [height, ← (perm_members t groupBy).length_eq, List.length_flatMap]

/-! ### In one pass -/

/-- The positions of fields that the table has lead to the cells under them. -/
theorem keyAt_filterMap (h : ∀ name ∈ groupBy, t.hasField name = true) (row : List Cell) :
    keyAt (groupBy.filterMap t.fieldIndex?) row = t.keyOf groupBy row := by
  induction groupBy with
  | nil => rfl
  | cons name groupBy ih =>
    obtain ⟨position, hposition⟩ := hasField_iff_exists.1 (h name List.mem_cons_self)
    have hrest := ih fun other hmem => h other (List.mem_cons_of_mem _ hmem)
    rw [List.filterMap_cons_some hposition, keyAt, List.map_cons, ← keyAt, hrest, keyOf, keyOf,
      List.map_cons, cellUnder_of_fieldIndex? hposition]

theorem isEmpty_filterMap (h : ∀ name ∈ groupBy, t.hasField name = true) :
    (groupBy.filterMap t.fieldIndex?).isEmpty = groupBy.isEmpty := by
  have hlength : (keyAt (groupBy.filterMap t.fieldIndex?) []).length = groupBy.length := by
    rw [keyAt_filterMap h, length_keyOf]
  rw [keyAt, List.length_map] at hlength
  rw [Bool.eq_iff_iff, List.isEmpty_iff_length_eq_zero, List.isEmpty_iff_length_eq_zero, hlength]

/-- The classes of the rows are the keys, each with its members. -/
theorem classes_eq_map (h : ∀ name ∈ groupBy, t.hasField name = true) :
    t.classes (groupBy.filterMap t.fieldIndex?) =
      (t.keys groupBy).map fun key =>
        (key, t.rows.zipIdx.filter fun row => t.keyOf groupBy row.1 == key) := by
  have hkeys : t.rows.zipIdx.map (fun row => t.keyOf groupBy row.1) =
      t.rows.map (t.keyOf groupBy) := by
    conv => rhs; rw [← List.zipIdx_map_fst 0 t.rows, List.map_map]
    rfl
  have hfound : Classes.ofList
        (fun row : List Cell × Nat => keyAt (groupBy.filterMap t.fieldIndex?) row.1)
        t.rows.zipIdx =
      (t.rows.map (t.keyOf groupBy)).eraseDups.map fun key =>
        (key, t.rows.zipIdx.filter fun row => t.keyOf groupBy row.1 == key) := by
    simp only [keyAt_filterMap h]
    rw [Classes.ofList_eq_map, hkeys]
  unfold classes
  rw [hfound, isEmpty_filterMap h]
  by_cases hgroupBy : groupBy = []
  · subst hgroupBy
    rw [keys_nil]
    cases hrows : t.rows with
    | nil => rfl
    | cons row rows =>
      -- The key of every row is empty.
      have hsame : (row :: rows).map (t.keyOf []) = List.replicate (rows.length + 1) [] :=
        List.map_const'
      rw [hsame]
      simp [keyOf, List.replicate_succ, List.eraseDups_cons]
  · have hsome : groupBy.isEmpty = false := by simpa using hgroupBy
    simp only [hsome, Bool.and_false, Bool.false_eq_true, if_false, keys, if_neg hgroupBy]

/-- The field that is reduced is looked up by its position. -/
theorem inputs_of_inputIndex? {step : AggregateStep} {input : Option Nat}
    (h : t.inputIndex? step = .ok input) (rows : List (List Cell)) :
    t.inputs step.field rows = input.elim [] fun position => rows.map (cellAt · position) := by
  unfold inputIndex? at h
  cases hfield : step.field with
  | none =>
    simp only [hfield] at h
    cases h
    rfl
  | some name =>
    simp only [hfield] at h
    cases hposition : t.fieldIndex? name with
    | none =>
      simp only [hposition] at h
      cases h
    | some position =>
      simp only [hposition] at h
      cases h
      exact List.map_congr_left fun row _ => cellUnder_of_fieldIndex? hposition row

/-- One pass over the rows gives a row for each key. -/
theorem reduced_eq_reducedByKey {f : AggregateFunction} {step : AggregateStep} {input : Option Nat}
    (h : ∀ name ∈ groupBy, t.hasField name = true) (hinput : t.inputIndex? step = .ok input) :
    t.reduced f input step.out groupBy = t.reducedByKey f step.field step.out groupBy := by
  simp only [reduced, reducedByKey, classes_eq_map h, List.map_map]
  congr 1
  refine List.map_congr_left fun key _ => ?_
  have hmembers : (t.rows.zipIdx.filter fun row => t.keyOf groupBy row.1 == key).map Prod.fst =
      t.members groupBy key :=
    map_fst_filter_zipIdx (fun row => t.keyOf groupBy row == key) t.rows
  have hlength := congrArg List.length hmembers
  rw [List.length_map] at hlength
  simp only [Function.comp_apply, hlength, result]
  rw [inputs_of_inputIndex? hinput, ← hmembers]
  cases input with
  | none => rfl
  | some position => rw [Option.elim_some, List.map_map]; rfl

/-! ### Aggregates -/

/-- An aggregate with a known function over fields that the table has. -/
theorem aggregated_eq_ok {step : AggregateStep} {f : AggregateFunction}
    (hf : AggregateFunction.ofName? step.function = some f)
    (hfield : ∀ name, step.field = some name → t.hasField name = true)
    (h : ∀ name ∈ groupBy, t.hasField name = true) :
    t.aggregated step groupBy = .ok (t.reducedByKey f step.field step.out groupBy) := by
  have hinput : ∃ input, t.inputIndex? step = .ok input := by
    unfold inputIndex?
    cases hname : step.field with
    | none => exact ⟨none, rfl⟩
    | some name =>
      obtain ⟨position, hposition⟩ := hasField_iff_exists.1 (hfield name hname)
      exact ⟨some position, by simp only [hposition]⟩
  obtain ⟨input, hinput⟩ := hinput
  simp only [aggregated, hf, hinput, ← reduced_eq_reducedByKey h hinput]
  rfl

/-- An aggregate gives one row for each different key, in order of first
    appearance: the key and the function of the rows with the key. Every row
    is in one group. Without a grouping there is one group, even of no rows;
    with one there are no groups of no rows. The counts of the groups, as whole
    numbers, add up to the rows of the table, and in each group the valid and
    the missing values of a field add up to the count. -/
theorem aggregated_eq_reducedByKey {step : AggregateStep} {f : AggregateFunction}
    (hf : AggregateFunction.ofName? step.function = some f)
    (hfield : ∀ name, step.field = some name → t.hasField name = true)
    (hgroupBy : ∀ name ∈ groupBy, t.hasField name = true) :
    t.aggregated step groupBy = .ok (t.reducedByKey f step.field step.out groupBy) ∧
      ((t.keys groupBy).Pairwise fun key other => (other == key) = false) ∧
      ((t.keys groupBy).flatMap (t.members groupBy)).Perm t.rows ∧
      (groupBy = [] → (t.reducedByKey f step.field step.out groupBy).height = 1) ∧
      (groupBy ≠ [] → t.rows = [] → (t.reducedByKey f step.field step.out groupBy).rows = []) ∧
      (∀ key n, t.whole? f step.field groupBy key = some n →
        t.result f step.field groupBy key = AggregateFunction.counted n) ∧
      (∃ counts, (t.keys groupBy).mapM (t.whole? .count step.field groupBy) = some counts ∧
        counts.sum = t.height) ∧
      ∀ key ∈ t.keys groupBy, ∀ name, ∃ count valid missing,
        t.whole? .count (some name) groupBy key = some count ∧
        t.whole? .valid (some name) groupBy key = some valid ∧
        t.whole? .missing (some name) groupBy key = some missing ∧ valid + missing = count := by
  refine ⟨aggregated_eq_ok hf hfield hgroupBy, pairwise_keys t groupBy, perm_members t groupBy,
    ?_, ?_, ?_, ?_, ?_⟩
  · intro hnil
    rw [hnil, height, reducedByKey, keys_nil]
    rfl
  · intro hsome hrows
    rw [reducedByKey, keys_of_rows_eq_nil hsome hrows]
    rfl
  · intro key n hn
    exact AggregateFunction.apply_eq_counted hn
  · refine ⟨_, mapM_eq_some_iff.2 (List.forall₂_map_right_iff.2 ?_), sum_length_members t groupBy⟩
    exact List.forall₂_same.2 fun key _ => rfl
  · intro key _ name
    refine ⟨_, _, _, rfl, rfl, rfl, ?_⟩
    rw [← length_inputs_some (t := t) name, Nat.add_comm]
    exact (List.length_eq_length_filter_add Cell.isNull).symm

/-- Values of two sites, of which one is numbered by zero with either sign. -/
def siteValues : Table :=
  ⟨["site", "value"], [[.num 0.0, .null], [.text "B", .num 1.0], [.num (-0.0), .num 2.0]]⟩

/-- The two zeros are one key, and one of its two values is missing. -/
theorem aggregated_eq_reducedByKey_of_sites :
    AggregateFunction.ofName? "valid" = some .valid ∧ siteValues.hasField "value" = true ∧
      siteValues.hasField "site" = true ∧
      siteValues.aggregated ⟨"valid", some "value", "n"⟩ ["site"] =
        .ok ⟨["site", "n"], [[.num 0.0, AggregateFunction.counted 1],
          [.text "B", AggregateFunction.counted 1]]⟩ ∧
      ∃ counts, (siteValues.keys ["site"]).mapM
          (siteValues.whole? .count (some "value") ["site"]) = some counts ∧
        counts.sum = 3 := by
  have hfield : ∀ name, some "value" = some name → siteValues.hasField name = true := by
    intro name hname
    rw [← Option.some.inj hname]
    rfl
  have hgroupBy : ∀ name ∈ ["site"], siteValues.hasField name = true := by
    intro name hname
    rw [List.mem_singleton.1 hname]
    rfl
  let step : AggregateStep := ⟨"valid", some "value", "n"⟩
  have hknown : AggregateFunction.ofName? step.function = some .valid := rfl
  obtain ⟨hreduced, -, -, -, -, -, hcounts, -⟩ :=
    aggregated_eq_reducedByKey hknown hfield hgroupBy
  exact ⟨rfl, rfl, rfl, hreduced, hcounts⟩

end Table

end PlotGrammar
