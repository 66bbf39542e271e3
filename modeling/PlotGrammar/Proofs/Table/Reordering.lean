import Mathlib.Data.List.Forall2
import Mathlib.Data.List.Perm.Basic
import PlotGrammar.Proofs.Results
import PlotGrammar.Proofs.Table.Reduction

/-! # Reordered rows

  Two tables are reorderings of each other if they have the same fields and
  the same rows up to their order, with cells compared by `==`
  (`Table.Reordered`). The cells need not be the same: of two zeros with
  different signs either may stand for the other, and which of them a group
  keeps depends on the row that comes first.

  - What is left without repetition is a reordering again
    (`Reordered.eraseDups`), because equal cells have equal keys.
  - So the keys of a grouping are reordered, and so are the members of equal
    keys (`Table.Reordered.keys`, `Table.Reordered.members`).
  - A counting function comes to the same number on reordered cells
    (`AggregateFunction.whole?_congr`), where a sum need not.

  Together, aggregates with a counting function keep tables reordered, or fail
  alike (`Table.Reordered.aggregated`).
-/

namespace PlotGrammar

variable {α β κ : Type}

/-! ### Lists -/

/-- The lists hold the same elements up to their order and `==`. -/
def Reordered [BEq α] (xs ys : List α) : Prop :=
  ∃ zs, xs.Perm zs ∧ List.Forall₂ (fun z y => (z == y) = true) zs ys

namespace Reordered

variable [BEq α] [BEq β] {xs ys : List α}

/-- A permutation only changes the order. -/
theorem of_perm [ReflBEq α] (h : xs.Perm ys) : Reordered xs ys :=
  ⟨ys, h, List.forall₂_same.2 fun y _ => beq_self_eq_true y⟩

theorem length_eq (h : Reordered xs ys) : xs.length = ys.length := by
  obtain ⟨zs, hperm, heq⟩ := h
  rw [hperm.length_eq, heq.length_eq]

/-- Images are reordered if those of equal elements are equal. -/
theorem map {f g : α → β} (h : Reordered xs ys)
    (hfg : ∀ x y, (x == y) = true → (f x == g y) = true) :
    Reordered (xs.map f) (ys.map g) := by
  obtain ⟨zs, hperm, heq⟩ := h
  refine ⟨zs.map f, hperm.map f, ?_⟩
  rw [List.forall₂_map_left_iff, List.forall₂_map_right_iff]
  exact heq.imp hfg

/-- Picked elements are reordered if equal elements are picked alike. -/
theorem filter {p q : α → Bool} (h : Reordered xs ys)
    (hpq : ∀ x y, (x == y) = true → p x = q y) : Reordered (xs.filter p) (ys.filter q) := by
  obtain ⟨zs, hperm, heq⟩ := h
  refine ⟨zs.filter p, hperm.filter p, List.rel_filter ?_ heq⟩
  intro x y hxy
  show p x = true ↔ q y = true
  rw [hpq x y hxy]

end Reordered

/-! ### Keys that decide equality -/

section Keys

variable [BEq α] {key : α → κ} {xs ys : List α}

/-- If keys decide equality, lists are reorderings of each other exactly if
    their keys are permuted. -/
theorem reordered_iff_perm_map (hkey : ∀ x y, (x == y) = true ↔ key x = key y) :
    Reordered xs ys ↔ (xs.map key).Perm (ys.map key) := by
  constructor
  · intro ⟨zs, hperm, heq⟩
    have hsame : zs.map key = ys.map key :=
      map_eq_map_of_forall₂ heq fun z _ y hzy => (hkey z y).1 hzy
    rw [← hsame]
    exact hperm.map key
  · intro hperm
    -- The elements can be permuted in place of their keys.
    have hkeys : List.Forall₂ (fun x k => key x = k) xs (xs.map key) := by
      rw [List.forall₂_map_right_iff]
      exact List.forall₂_same.2 fun _ _ => rfl
    have hcomp : Relation.Comp (List.Forall₂ fun x k => key x = k) List.Perm xs (ys.map key) :=
      ⟨xs.map key, hkeys, hperm⟩
    rw [List.forall₂_comp_perm_eq_perm_comp_forall₂] at hcomp
    obtain ⟨zs, hzs, heq⟩ := hcomp
    rw [List.forall₂_map_right_iff] at heq
    exact ⟨zs, hzs, heq.imp fun z y hzy => (hkey z y).2 hzy⟩

/-- The keys of what is left are what is left of the keys. -/
theorem map_eraseDups [DecidableEq κ] (hkey : ∀ x y, (x == y) = true ↔ key x = key y)
    (xs : List α) : xs.eraseDups.map key = (xs.map key).eraseDups := by
  induction xs using eraseDups_induction with
  | nil => rfl
  | cons x xs ih =>
    have hdiffers : (fun k => !k == key x) ∘ key = fun y => !y == x := by
      funext y
      rw [Function.comp_apply, Bool.eq_iff_iff, Bool.not_eq_true', Bool.not_eq_true',
        beq_eq_false_iff_ne, ← Bool.not_eq_true, ne_eq, hkey]
    rw [List.map_cons, List.map_cons, List.eraseDups_cons, List.filter_map, hdiffers, ih]

/-- Reordered lists have the same elements left, each once, in some order. -/
theorem Reordered.eraseDups [DecidableEq κ] (hkey : ∀ x y, (x == y) = true ↔ key x = key y)
    (h : Reordered xs ys) : Reordered xs.eraseDups ys.eraseDups := by
  rw [reordered_iff_perm_map hkey] at h ⊢
  rw [map_eraseDups hkey, map_eraseDups hkey,
    List.perm_ext_iff_of_nodup (nodup_eraseDups _) (nodup_eraseDups _)]
  intro k
  rw [List.mem_eraseDups, List.mem_eraseDups, h.mem_iff]

end Keys

/-! ### Counting -/

/-- Equal cells are null alike. -/
theorem Cell.isNull_congr {c c' : Cell} (h : (c == c') = true) : c.isNull = c'.isNull := by
  have hkey : ∀ c : Cell, c.isNull = decide (c.key = .null) := by
    intro c
    cases c <;> rfl
  rw [hkey, hkey, beq_iff_key.1 h]

/-- A counting function comes to the same number of reordered cells. -/
theorem AggregateFunction.whole?_congr {cells cells' : List Cell} (h : Reordered cells cells')
    (f : AggregateFunction) (rows : Nat) : f.whole? rows cells = f.whole? rows cells' := by
  cases f with
  | valid =>
    have hvalid : ∀ c c' : Cell, (c == c') = true → (!c.isNull) = !c'.isNull := by
      intro c c' heq
      rw [Cell.isNull_congr heq]
    rw [whole?, whole?, (h.filter hvalid).length_eq]
  | missing =>
    have hmissing := h.filter fun c c' heq => Cell.isNull_congr heq
    rw [whole?, whole?, hmissing.length_eq]
  | distinct =>
    have hdistinct := h.eraseDups fun _ _ => Cell.beq_iff_key
    rw [whole?, whole?, hdistinct.length_eq]
  | _ => rfl

/-- The names of the counting functions. -/
def AggregateFunction.countingNames : List String := ["count", "valid", "missing", "distinct"]

/-- A function with such a name comes to a whole number. -/
theorem AggregateFunction.exists_of_mem_countingNames {name : String} (h : name ∈ countingNames) :
    ∃ f, ofName? name = some f ∧ ∀ rows cells, ∃ n, f.whole? rows cells = some n := by
  rw [countingNames, List.mem_cons, List.mem_cons, List.mem_cons, List.mem_singleton] at h
  rcases h with rfl | rfl | rfl | rfl
  · exact ⟨.count, rfl, fun rows _ => ⟨rows, rfl⟩⟩
  · exact ⟨.valid, rfl, fun _ _ => ⟨_, rfl⟩⟩
  · exact ⟨.missing, rfl, fun _ _ => ⟨_, rfl⟩⟩
  · exact ⟨.distinct, rfl, fun _ _ => ⟨_, rfl⟩⟩

/-! ### Tables -/

namespace Table

/-- The tables have the same fields, and the same rows up to their order and
    the equality of cells. -/
structure Reordered (t t' : Table) : Prop where
  fields : t.fields = t'.fields
  rows : PlotGrammar.Reordered t.rows t'.rows

namespace Reordered

variable {t t' : Table} {groupBy : List String} {key key' : List Cell}

/-- Equal rows have equal cells under a field. -/
theorem cellUnder (h : t.Reordered t') {row row' : List Cell} (heq : (row == row') = true)
    (name : String) : (t.cellUnder row name == t'.cellUnder row' name) = true := by
  unfold Table.cellUnder
  rw [fieldIndex?_congr h.fields]
  cases t'.fieldIndex? name with
  | none => rfl
  | some position => exact Cell.cellAt_beq_cellAt heq position

/-- Equal rows have equal keys. -/
theorem keyOf (h : t.Reordered t') {row row' : List Cell} (heq : (row == row') = true)
    (groupBy : List String) : (t.keyOf groupBy row == t'.keyOf groupBy row') = true := by
  unfold Table.keyOf
  exact map_beq_map.2 fun name _ => h.cellUnder heq name

/-- The keys of a grouping are the same up to their order, whichever of equal
    cells stands for them. -/
theorem keys (h : t.Reordered t') (groupBy : List String) :
    PlotGrammar.Reordered (t.keys groupBy) (t'.keys groupBy) := by
  unfold Table.keys
  by_cases hgroupBy : groupBy = []
  · rw [if_pos hgroupBy, if_pos hgroupBy]
    exact .of_perm (.refl _)
  · rw [if_neg hgroupBy, if_neg hgroupBy]
    have hkeys := h.rows.map fun row row' heq => h.keyOf heq groupBy
    exact hkeys.eraseDups fun _ _ => Cell.beq_list_iff_key

/-- Equal keys have the same members up to their order. -/
theorem members (h : t.Reordered t') (groupBy : List String) (hkey : (key == key') = true) :
    PlotGrammar.Reordered (t.members groupBy key) (t'.members groupBy key') := by
  unfold Table.members
  apply h.rows.filter
  intro row row' heq
  rw [BEq.congr_left (h.keyOf heq groupBy), BEq.congr_right hkey]

/-- Reordered rows have reordered cells under the field that is reduced. -/
theorem inputs (h : t.Reordered t') (field : Option String) {rows rows' : List (List Cell)}
    (hrows : PlotGrammar.Reordered rows rows') :
    PlotGrammar.Reordered (t.inputs field rows) (t'.inputs field rows') := by
  unfold Table.inputs
  cases field with
  | none => exact .of_perm (.refl _)
  | some name => exact hrows.map fun row row' heq => h.cellUnder heq name

/-- A function that comes to a whole number has the same result for equal
    keys. -/
theorem result (h : t.Reordered t') (hkey : (key == key') = true) {f : AggregateFunction}
    (hf : ∀ rows cells, ∃ n, f.whole? rows cells = some n) (field : Option String) :
    t.result f field groupBy key = t'.result f field groupBy key' := by
  have hmembers := h.members groupBy hkey
  have hinputs := h.inputs field hmembers
  obtain ⟨n, hn⟩ := hf (t.members groupBy key).length (t.inputs field (t.members groupBy key))
  have hn' := hn
  rw [AggregateFunction.whole?_congr hinputs, hmembers.length_eq] at hn'
  unfold Table.result
  rw [AggregateFunction.apply_eq_counted hn, AggregateFunction.apply_eq_counted hn']

theorem reducedByKey (h : t.Reordered t') {f : AggregateFunction}
    (hf : ∀ rows cells, ∃ n, f.whole? rows cells = some n) (field : Option String) (out : String)
    (groupBy : List String) :
    (t.reducedByKey f field out groupBy).Reordered (t'.reducedByKey f field out groupBy) := by
  refine ⟨rfl, (h.keys groupBy).map fun key key' hkey => ?_⟩
  -- The result is the same cell, so a row is equal if its key is.
  rw [h.result hkey hf field, Cell.beq_list_iff_key, List.map_append, List.map_append,
    Cell.beq_list_iff_key.1 hkey]

/-- An aggregate with a counting function keeps tables reordered, or fails on
    both alike. -/
theorem aggregated (h : t.Reordered t') {step : AggregateStep}
    (hstep : step.function ∈ AggregateFunction.countingNames)
    (hgroupBy : ∀ name ∈ groupBy, t.hasField name = true) :
    Agree Table.Reordered (t.aggregated step groupBy) (t'.aggregated step groupBy) := by
  obtain ⟨f, hname, hf⟩ := AggregateFunction.exists_of_mem_countingNames hstep
  have hinput : t.inputIndex? step = t'.inputIndex? step := by
    simp only [inputIndex?, fieldIndex?_congr h.fields]
  have hgroupBy' : ∀ name ∈ groupBy, t'.hasField name = true := by
    intro name hmem
    rw [← hasField_congr h.fields, hgroupBy name hmem]
  unfold Table.aggregated
  simp only [hname]
  -- The same field is missing in both, or in neither.
  rw [hinput]
  refine Agree.bind_same fun input hok => .ok ?_
  rw [reduced_eq_reducedByKey hgroupBy (hinput.trans hok), reduced_eq_reducedByKey hgroupBy' hok]
  exact h.reducedByKey hf step.field step.out groupBy

end Reordered

end Table

end PlotGrammar
