import PlotGrammar.Proofs.Binary64.Counts
import PlotGrammar.Proofs.Layout.Grid

/-! # Settled layouts

  A directive is refused for its column count only: one that is no whole number
  in the range (`columnCount?_eq_some_iff`), one that is not used, or none where
  one is needed (`Layout.IsRefused`). A configured column count of zero is
  passed over, so a settled grid has a column, and its children fill it
  (`isFilled_of_settle`).
-/

namespace PlotGrammar

open Binary64 (value)

/-! ### Column counts -/

/-- The double is a whole number in the range of column counts. -/
def IsColumnCount (columns : Float) (count : ℕ) : Prop :=
  columns.isFinite = true ∧ value columns = count ∧ 1 ≤ count ∧ count ≤ 2 ^ 32 - 1

theorem columnCount?_eq_some_iff {columns : Float} {count : ℕ} :
    columnCount? columns = some count ↔ IsColumnCount columns count := by
  have hmost : maxColumns = 2 ^ 32 - 1 := rfl
  have hmax : Binary64.maxCount = 2 ^ 64 - 1 := rfl
  unfold columnCount? IsColumnCount
  dsimp only
  constructor
  · intro h
    rw [Option.ite_none_right_eq_some, Bool.and_eq_true, Bool.and_eq_true, decide_eq_true_eq] at h
    obtain ⟨⟨⟨hfinite, hwhole⟩, hleast, hle⟩, hcount⟩ := h
    obtain ⟨n, hn⟩ := Binary64.isWhole_iff.1 hwhole
    -- A negative number would count as zero.
    have hnonneg : 0 ≤ value columns := by
      by_contra hneg
      rw [Binary64.toCount_of_neg (not_le.1 hneg)] at hleast
      omega
    rw [abs_of_nonneg hnonneg] at hn
    have htoCount := Binary64.toCount_of_value hfinite hn
    have heq : count = n := by
      rw [← Option.some.inj hcount]
      omega
    rw [heq]
    exact ⟨hfinite, hn, by omega, by omega⟩
  · intro h
    obtain ⟨hfinite, hvalue, hleast, hle⟩ := h
    have htoCount : Binary64.toCount columns = count := by
      rw [Binary64.toCount_of_value hfinite hvalue]
      omega
    have hwhole : Binary64.isWhole columns = true := by
      rw [Binary64.isWhole_iff, hvalue]
      exact ⟨count, abs_of_nonneg (Nat.cast_nonneg count)⟩
    rw [htoCount, hfinite, hwhole, if_pos]
    rw [Bool.true_and, Bool.true_and, decide_eq_true_eq]
    omega

theorem columnCount?_eq_none_iff {columns : Float} :
    columnCount? columns = none ↔ ¬ ∃ count, IsColumnCount columns count := by
  simp only [← columnCount?_eq_some_iff, ← Option.isSome_iff_exists, Option.not_isSome_iff_eq_none]

/-! ### Refused directives -/

/-- The column count of a directive makes no sense, is not used, or is missing
    without being configured. -/
def Layout.IsRefused (layout : Layout) (configured : Option ℕ) : Prop :=
  (∃ columns, layout.columns = some columns ∧
    ((¬ ∃ count, IsColumnCount columns count) ∨ layout.kind ≠ .wrap)) ∨
  (layout.columns = none ∧ layout.kind = .wrap ∧ ∀ count, configured = some count → count = 0)

/-- What a directive without a column count comes to. -/
theorem settle_of_columns_eq_none {layout : Layout} (h : layout.columns = none) (faceted : Bool)
    (configured : Option ℕ) :
    settle (some layout) faceted configured =
      match layout.kind with
      | .layer => .ok .layer
      | .horizontal => .ok .horizontal
      | .vertical => .ok .vertical
      | .wrap =>
        match configured.filter (0 < ·) with
        | some count => .ok (.wrap count)
        | none => .error .missingColumns := by
  obtain ⟨kind, columns⟩ := layout
  subst h
  cases kind <;> rfl

/-- What a directive with a column count comes to. -/
theorem settle_of_columns_eq_some {layout : Layout} {columns : Float}
    (h : layout.columns = some columns) (faceted : Bool) (configured : Option ℕ) :
    settle (some layout) faceted configured =
      match columnCount? columns with
      | some count =>
        if layout.kind = .wrap then .ok (.wrap count)
        else .error (.unusedColumns layout.kind faceted)
      | none => .error (.badColumns columns) := by
  obtain ⟨kind, columns'⟩ := layout
  subst h
  simp only [settle, Layout.checkedColumns]
  cases columnCount? columns with
  | none => rfl
  | some count => cases kind <;> rfl

section

variable {faceted : Bool} {configured : Option ℕ}

/-- A configured column count is none or zero exactly if it is passed over. -/
theorem filter_eq_none_iff :
    configured.filter (0 < ·) = none ↔ ∀ count, configured = some count → count = 0 := by
  cases configured <;> simp

/-- A directive fails exactly if it is refused. -/
theorem exists_settle_eq_error_iff {layout : Layout} :
    (∃ fault, settle (some layout) faceted configured = .error fault) ↔
      layout.IsRefused configured := by
  unfold Layout.IsRefused
  cases hcolumns : layout.columns with
  | none =>
    rw [settle_of_columns_eq_none hcolumns, ← filter_eq_none_iff]
    cases layout.kind with
    | wrap => cases configured.filter (0 < ·) <;> simp
    | layer => simp
    | horizontal => simp
    | vertical => simp
  | some columns =>
    rw [settle_of_columns_eq_some hcolumns]
    have hnone := @columnCount?_eq_none_iff columns
    cases hcount : columnCount? columns with
    | none =>
      rw [hcount] at hnone
      simp [not_exists.1 (hnone.1 rfl)]
    | some count =>
      have hexists : ∃ count, IsColumnCount columns count :=
        ⟨count, columnCount?_eq_some_iff.1 hcount⟩
      by_cases hkind : layout.kind = .wrap
      · simp [hkind, hexists]
      · simp [hkind]

/-- A settled grid has a column. -/
theorem hasColumns_of_settle {layout : Option Layout} {composition : Composition}
    (h : settle layout faceted configured = .ok composition) : composition.HasColumns := by
  intro columns hwrap
  subst hwrap
  cases layout with
  | none => cases faceted <;> cases h
  | some layout =>
    cases hcolumns : layout.columns with
    | none =>
      rw [settle_of_columns_eq_none hcolumns] at h
      split at h
      · cases h
      · cases h
      · cases h
      · split at h
        · next count hcount =>
          -- What is configured has passed the filter.
          cases h
          simpa using (Option.filter_eq_some_iff.1 hcount).2
        · cases h
    | some written =>
      rw [settle_of_columns_eq_some hcolumns] at h
      split at h
      · next count hcount =>
        split at h
        · cases h
          exact (columnCount?_eq_some_iff.1 hcount).2.2.1
        · cases h
      · cases h

end

/-! ### Settled directives -/

/-- A node's directive fails exactly if it is refused, and any other, or none,
    settles to a composition whose grid is filled by however many children. -/
theorem isFilled_of_settle (layout : Option Layout) (faceted : Bool) (configured : Option ℕ) :
    ((∃ fault, settle layout faceted configured = .error fault) ↔
      ∃ directive, layout = some directive ∧ directive.IsRefused configured) ∧
    ∀ composition, settle layout faceted configured = .ok composition → ∀ count,
      IsFilled composition count (plan composition count).1 (plan composition count).2 := by
  constructor
  · cases layout with
    | none => simp [settle]
    | some directive =>
      rw [exists_settle_eq_error_iff]
      simp
  · intro composition h count
    exact isFilled_plan (hasColumns_of_settle h) count

/-- Two children in a grid of five columns are side by side in one row, and a
    grid without a column count is refused if zero is configured. -/
theorem isFilled_of_settle_of_few :
    settle (some ⟨.wrap, some 5.0⟩) true none = .ok (.wrap 5) ∧
    IsFilled (.wrap 5) 2 ⟨.wrap 5, 1, 2⟩ [⟨0, 0, 0, 0⟩, ⟨1, 0, 1, 0⟩] ∧
    ∃ fault, settle (some ⟨.wrap, none⟩) false (some 0) = .error fault := by
  have hcount : columnCount? 5.0 = some 5 := by decide +kernel
  have hsettle : settle (some ⟨.wrap, some 5.0⟩) true none = .ok (.wrap 5) := by
    rw [settle_of_columns_eq_some rfl, hcount]
    rfl
  refine ⟨hsettle, (isFilled_of_settle _ _ _).2 _ hsettle 2, ?_⟩
  rw [(isFilled_of_settle _ _ _).1]
  refine ⟨_, rfl, .inr ⟨rfl, rfl, ?_⟩⟩
  intro count hcount
  exact (Option.some.inj hcount).symm

end PlotGrammar
