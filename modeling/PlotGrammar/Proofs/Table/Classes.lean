import PlotGrammar.Proofs.Table.Reduction
import PlotGrammar.Proofs.Table.Removal

/-! # Classes of rows

  The rows of a table fall into classes by their cells under some fields. What
  makes a class can be read off the table: two rows are in one class exactly
  if they have equal cells under all of the fields (`Table.same_class_iff`).

  - A class starts with the row that opened it, which gave it its key
    (`Table.value?_of_mem_zip_key`).
  - Its rows keep their order (`Table.increasing_class`), and the classes are in
    the order of their first rows (`Table.pairwise_classes`).

  Only of no rows, and by no fields, there is a class without members
  (`Table.classes_cases`).
-/

namespace PlotGrammar

namespace Table

variable {t : Table} {fields : List String}

/-! ### Keys and cells -/

/-- Under its fields a rectangular table has a cell in every row. -/
theorem value?_eq_some (h : t.Rectangular) {r : Nat} {row : List Cell} {field : String}
    (hrow : t.rows[r]? = some row) (hfield : t.hasField field = true) :
    t.value? r field = some (t.cellUnder row field) := by
  obtain ⟨position, hposition⟩ := hasField_iff_exists.1 hfield
  have hlt : position < row.length := h.covers field position hposition row (List.mem_of_getElem? hrow)
  have hcell : row[position]? = some (row.getD position .null) := by
    rw [List.getD_eq_getElem?_getD, List.getElem?_eq_getElem hlt, Option.getD_some]
  rw [cellUnder_of_fieldIndex? hposition, cellAt, ← hcell]
  simp [value?, hposition, hrow]

/-! ### Classes of rows -/

/-- The rows fall into classes by their keys; only where there are neither
    fields nor rows there is a class without members. -/
theorem classes_cases (h : ∀ field ∈ fields, t.hasField field = true) :
    (fields = [] ∧ t.rows = [] ∧ t.classes (fields.filterMap t.fieldIndex?) = [([], [])]) ∨
      t.classes (fields.filterMap t.fieldIndex?) =
        Classes.ofList (fun row => t.keyOf fields row.1) t.rows.zipIdx := by
  unfold classes
  simp only [keyAt_filterMap h, isEmpty_filterMap h]
  by_cases hblank : fields = [] ∧ t.rows = []
  · left
    obtain ⟨rfl, hrows⟩ := hblank
    refine ⟨rfl, hrows, ?_⟩
    rw [hrows]
    rfl
  · right
    apply if_neg
    rw [Bool.and_eq_true, List.isEmpty_iff, List.isEmpty_iff]
    intro ⟨hfound, hfields⟩
    -- Rows open classes.
    have hrows : t.rows ≠ [] := fun hrows => hblank ⟨hfields, hrows⟩
    exact Classes.ofList_ne_nil _ (by simpa using hrows) hfound

section

variable (h : ∀ field ∈ fields, t.hasField field = true)
  {c : List Cell × List (List Cell × Nat)}
  (hc : c ∈ t.classes (fields.filterMap t.fieldIndex?))

include h hc

/-- A class has the rows of its key. -/
theorem members_of_mem_classes :
    c.2 = t.rows.zipIdx.filter fun row => t.keyOf fields row.1 == c.1 := by
  rcases classes_cases h with ⟨-, hrows, hclasses⟩ | hclasses
  · rw [hclasses, List.mem_singleton] at hc
    rw [hc, hrows]
    rfl
  · rw [hclasses] at hc
    exact Classes.members_of_mem hc

/-- The key of a class is the key of its first row. -/
theorem key_of_mem_classes {row : List Cell × Nat} (hrow : row ∈ c.2.head?) :
    c.1 = t.keyOf fields row.1 := by
  rcases classes_cases h with ⟨-, -, hclasses⟩ | hclasses
  · rw [hclasses, List.mem_singleton] at hc
    rw [hc] at hrow
    cases hrow
  · rw [hclasses] at hc
    obtain ⟨first, rest, hmembers, hkey⟩ := Classes.exists_head hc
    rw [hmembers, List.head?_cons, Option.mem_some_iff] at hrow
    rw [hkey, hrow]

/-- Only the class that stands in for no rows has no members. -/
theorem rows_eq_nil_of_mem_classes (hnil : c.2 = []) : fields = [] ∧ t.rows = [] := by
  rcases classes_cases h with ⟨hfields, hrows, -⟩ | hclasses
  · exact ⟨hfields, hrows⟩
  · rw [hclasses] at hc
    obtain ⟨first, rest, hmembers, -⟩ := Classes.exists_head hc
    rw [hnil] at hmembers
    cases hmembers

end

/-- The classes are in the order of their first rows. -/
theorem pairwise_classes (h : ∀ field ∈ fields, t.hasField field = true) :
    (t.classes (fields.filterMap t.fieldIndex?)).Pairwise fun c later =>
      ∀ row ∈ c.2.head?, ∀ other ∈ later.2.head?, row.2 < other.2 := by
  rcases classes_cases h with ⟨-, -, hclasses⟩ | hclasses
  · rw [hclasses]
    exact List.pairwise_singleton _ _
  · rw [hclasses]
    apply Classes.pairwise_head
    rw [← List.pairwise_map, List.zipIdx_map_snd]
    exact List.pairwise_lt_range'

section

variable (hrect : t.Rectangular) (h : ∀ field ∈ fields, t.hasField field = true)

include hrect h

/-- Two rows have equal keys if they have equal cells under all fields. -/
theorem keyOf_beq_iff_value? {r s : Nat} {row other : List Cell} (hrow : t.rows[r]? = some row)
    (hother : t.rows[s]? = some other) :
    (t.keyOf fields row == t.keyOf fields other) = true ↔
      ∀ field ∈ fields, (t.value? r field == t.value? s field) = true := by
  rw [keyOf, keyOf, map_beq_map]
  refine forall₂_congr fun field hmem => ?_
  rw [value?_eq_some hrect hrow (h field hmem), value?_eq_some hrect hother (h field hmem),
    Option.some_beq_some]

/-- Two rows are in one class if they have equal cells under all fields, and
    only then. -/
theorem same_class_iff {r s : Nat} (hr : r < t.height) (hs : s < t.height) :
    (∃ c ∈ t.classes (fields.filterMap t.fieldIndex?),
        r ∈ c.2.map Prod.snd ∧ s ∈ c.2.map Prod.snd) ↔
      ∀ field ∈ fields, (t.value? r field == t.value? s field) = true := by
  have hrow : t.rows[r]? = some t.rows[r] := List.getElem?_eq_getElem hr
  have hother : t.rows[s]? = some t.rows[s] := List.getElem?_eq_getElem hs
  rw [← keyOf_beq_iff_value? hrect h hrow hother]
  constructor
  · rintro ⟨c, hc, hrc, hsc⟩
    have hmembers := members_of_mem_classes h hc
    -- Both keys are equal to the key of the class.
    have hkey : ∀ {i : Nat} {cells : List Cell}, t.rows[i]? = some cells → i ∈ c.2.map Prod.snd →
        (t.keyOf fields cells == c.1) = true := by
      intro i cells hcells hi
      rw [hmembers] at hi
      obtain ⟨⟨found, i⟩, hfound, rfl⟩ := List.mem_map.1 hi
      obtain ⟨hzip, hkey⟩ := List.mem_filter.1 hfound
      rw [List.mk_mem_zipIdx_iff_getElem?, hcells, Option.some.injEq] at hzip
      rw [hzip]
      exact hkey
    exact BEq.trans (hkey hrow hrc) (BEq.symm (hkey hother hsc))
  · intro hkeys
    have hmem : (t.rows[r], r) ∈ t.rows.zipIdx := List.mk_mem_zipIdx_iff_getElem?.2 hrow
    obtain ⟨c, hc, hrc⟩ := List.mem_flatMap.1 ((t.perm_classes _).mem_iff.2 hmem)
    refine ⟨c, hc, List.mem_map.2 ⟨_, hrc, rfl⟩, List.mem_map.2 ⟨(t.rows[s], s), ?_, rfl⟩⟩
    rw [members_of_mem_classes h hc] at hrc ⊢
    have hkey := (List.mem_filter.1 hrc).2
    exact List.mem_filter.2 ⟨List.mk_mem_zipIdx_iff_getElem?.2 hother,
      BEq.trans (BEq.symm hkeys) hkey⟩

end

section

variable (h : ∀ field ∈ fields, t.hasField field = true)
  {c : List Cell × List (List Cell × Nat)}
  (hc : c ∈ t.classes (fields.filterMap t.fieldIndex?))

include h hc

/-- The key of a class has a cell for every field. -/
theorem map_fst_zip_key : (fields.zip c.1).map Prod.fst = fields := by
  cases hrows : c.2.head? with
  | none =>
    rw [(rows_eq_nil_of_mem_classes h hc (List.head?_eq_none_iff.1 hrows)).1]
    rfl
  | some row =>
    rw [key_of_mem_classes h hc hrows]
    apply List.map_fst_zip
    rw [length_keyOf]

/-- The cells of the key of a class are those of its first row. -/
theorem value?_of_mem_zip_key (hrect : t.Rectangular) {r : Nat} (hr : r ∈ (c.2.map Prod.snd).head?)
    {entry : String × Cell} (hentry : entry ∈ fields.zip c.1) :
    t.value? r entry.1 = some entry.2 := by
  rw [List.head?_map, Option.mem_def, Option.map_eq_some_iff] at hr
  obtain ⟨row, hrow, rfl⟩ := hr
  have hmem : row ∈ t.rows.zipIdx := by
    have hin := List.mem_of_mem_head? hrow
    rw [members_of_mem_classes h hc] at hin
    exact (List.mem_filter.1 hin).1
  rw [key_of_mem_classes h hc hrow, keyOf, List.zip_eq_zipWith, List.zipWith_map_right,
    List.zipWith_self] at hentry
  obtain ⟨field, hfield, rfl⟩ := List.mem_map.1 hentry
  exact value?_eq_some hrect (List.mem_zipIdx_iff_getElem?.1 hmem) (h field hfield)

/-- The rows of a class keep their order. -/
theorem increasing_class : (c.2.map Prod.snd).Pairwise (· < ·) := by
  have hordered : (t.rows.zipIdx.map Prod.snd).Pairwise (· < ·) := by
    rw [List.zipIdx_map_snd]
    exact List.pairwise_lt_range'
  rw [members_of_mem_classes h hc]
  exact hordered.sublist (List.filter_sublist.map _)

end

end Table

end PlotGrammar
