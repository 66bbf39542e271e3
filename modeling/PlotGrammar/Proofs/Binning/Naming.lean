import PlotGrammar.Proofs.Binning.Ends
import PlotGrammar.Proofs.Binning.Starts

/-! # Labels name the buckets that hold the numbers

  Two buckets start a width apart and rounding moves each start by less than a
  third of it, so labels tell buckets apart, whatever the width
  (`written_lower_lt`, `separatesBuckets_of_isRegular`).

  That a label also says where its bucket is takes a width that fits its places
  (`namesBuckets_of_fit`). The index of a bucket is a rounded quotient with the
  slack added to it, so even then a number may be below its bucket by a little
  more than the slack. A width with more digits than its places puts the ends
  elsewhere (`not_namesBuckets`).
-/

namespace PlotGrammar.Binning

open Binary64 (value Nearest)
open Decimal (written)

/-- Nothing but a number has a label, and labels tell buckets apart. -/
structure SeparatesBuckets (b : Binning) (cells : List Cell) : Prop where
  label_eq_null : ∀ cell, cell.finite? = none → b.label cell = .null
  label_eq_iff : ∀ cell ∈ cells, ∀ x, cell.finite? = some x →
    ∀ cell' ∈ cells, ∀ x', cell'.finite? = some x' →
      (b.label cell = b.label cell' ↔ value (b.bucket x) = value (b.bucket x'))

/-- The label of every number also says the ends of a bucket that holds it. A
    number may be below its bucket, and the least one below the start, by the
    part `below` of the width. -/
structure NamesBuckets (below : ℚ) (b : Binning) (cells : List Cell) : Prop
    extends SeparatesBuckets b cells where
  start_le : ∀ cell ∈ cells, ∀ x, cell.finite? = some x →
    value b.start ≤ value x + below * value b.width
  exists_ends : ∀ cell ∈ cells, ∀ x, cell.finite? = some x →
    ∃ lower upper, labelEnds? (b.label cell) = some (lower, upper) ∧
      lower - below * value b.width ≤ value x ∧
      value x < upper + 1e-9 * value b.width ∧
      |upper - lower - value b.width| ≤ 1e-9 * value b.width
  /-- The label of the next bucket goes on where a label ends. -/
  exists_middle : ∀ cell ∈ cells, ∀ x, cell.finite? = some x →
    ∀ cell' ∈ cells, ∀ x', cell'.finite? = some x' → value (b.bucket x') = value (b.bucket x) + 1 →
      ∃ lower middle upper, labelEnds? (b.label cell) = some (lower, middle) ∧
        labelEnds? (b.label cell') = some (middle, upper)

/-! ### Labels of different buckets -/

section

variable {b : Binning} (h : IsRegular b) (hmost : value b.width ≤ 1000)

section

variable {x : Float} (hx : x.isFinite = true) (hsmall : |value x| ≤ 1000)
include h hmost hx hsmall

/-- The start of a bucket, before it is rounded to places. -/
theorem lower_bounds : (b.start + b.bucket x * b.width).isFinite = true ∧
    |value (b.start + b.bucket x * b.width)| ≤ 2100 ∧
    |value (b.start + b.bucket x * b.width) -
      (value b.start + value (b.bucket x) * value b.width)| ≤ 1 / 100 * value b.width := by
  have hleast := h.width_least
  have hstart := h.start_le
  have hbound := abs_distance_le h hsmall
  obtain ⟨-, hdistance⟩ := nearest_distance h hx hsmall
  have hdistance_error := hdistance.error (k := 12) (by norm_num) (by norm_num; linarith)
  rw [abs_le] at hsmall hstart hbound hdistance_error
  norm_num at hdistance_error
  obtain ⟨hbucket, hindex_le, hindex_ge⟩ :=
    index_bounds hleast h.width_isFinite hdistance.isFinite (abs_le.2 ⟨by linarith, by linarith⟩)
  change (b.bucket x).isFinite = true at hbucket
  change value (b.bucket x) * value b.width ≤ _ at hindex_le
  change _ ≤ value (b.bucket x) * value b.width + _ at hindex_ge
  have hindex : |value (b.bucket x) * value b.width| ≤ 5100 :=
    abs_le.2 ⟨by linarith, by linarith⟩
  have hproduct := Binary64.nearest_mul hbucket h.width_isFinite
    (Binary64.abs_lt_of_le hindex (by norm_num))
  have hproduct_error := hproduct.error (k := 13) (by norm_num) (hindex.trans_lt (by norm_num))
  rw [abs_le] at hproduct_error
  norm_num at hproduct_error
  have hsum : |value b.start + value (b.bucket x * b.width)| ≤ 2090 :=
    abs_le.2 ⟨by linarith, by linarith⟩
  have hlower := Binary64.nearest_add h.start_isFinite hproduct.isFinite
    (Binary64.abs_lt_of_le hsum (by norm_num))
  have hlower_error := hlower.error (k := 13) (by norm_num) (hsum.trans_lt (by norm_num))
  rw [abs_le] at hsum hlower_error
  norm_num at hlower_error
  exact ⟨hlower.isFinite, abs_le.2 ⟨by linarith, by linarith⟩,
    abs_le.2 ⟨by linarith, by linarith⟩⟩

/-- Both ends of a bucket are finite, and the lower one is written close to where
    the bucket starts. -/
theorem ends_bounds : (b.ends x).1.isFinite = true ∧ (b.ends x).2.isFinite = true ∧
    |written .up (b.ends x).1 - (value b.start + value (b.bucket x) * value b.width)| ≤
      1 / 5 * value b.width := by
  have hleast := h.width_least
  obtain ⟨hfinite, hbound, herror⟩ := lower_bounds h hmost hx hsmall
  obtain ⟨hlower, hclose⟩ :=
    abs_roundTo_sub_le hleast h.width_isFinite hfinite (hbound.trans (by norm_num))
  rw [abs_le] at hbound herror hclose
  have hlower_le : |value (roundTo b.width (b.start + b.bucket x * b.width))| ≤ 2300 :=
    abs_le.2 ⟨by linarith, by linarith⟩
  have hwritten := Decimal.abs_written_sub_le .up (k := 12) (by norm_num)
    (hlower_le.trans_lt (by norm_num))
  rw [abs_le] at hlower_le hwritten
  norm_num at hwritten
  have hsum : |value (roundTo b.width (b.start + b.bucket x * b.width)) + value b.width| ≤ 3300 :=
    abs_le.2 ⟨by linarith, by linarith⟩
  have hnext := Binary64.nearest_add hlower h.width_isFinite
    (Binary64.abs_lt_of_le hsum (by norm_num))
  have hnext_error := hnext.error (k := 12) (by norm_num) (hsum.trans_lt (by norm_num))
  rw [abs_le] at hsum hnext_error
  norm_num at hnext_error
  have hupper := (abs_roundTo_sub_le hleast h.width_isFinite hnext.isFinite
    (abs_le.2 ⟨by linarith, by linarith⟩)).1
  exact ⟨hlower, hupper, abs_le.2 ⟨by dsimp only [ends]; linarith, by dsimp only [ends]; linarith⟩⟩

end

section

variable {x y : Float} (hx : x.isFinite = true) (hsmall : |value x| ≤ 1000)
  (hy : y.isFinite = true) (hsmall' : |value y| ≤ 1000)
include h hmost hx hsmall hy hsmall'

/-- Later buckets have greater lower ends, also as they are written. -/
theorem written_lower_lt (hlt : value (b.bucket x) < value (b.bucket y)) :
    written .up (b.ends x).1 < written .up (b.ends y).1 := by
  obtain ⟨-, -, hlower⟩ := ends_bounds h hmost hx hsmall
  obtain ⟨-, -, hlower'⟩ := ends_bounds h hmost hy hsmall'
  have hnext : value (b.bucket x) + 1 ≤ value (b.bucket y) := by
    rw [(value_bucket h hx hsmall).2, (value_bucket h hy hsmall').2] at hlt ⊢
    exact_mod_cast hlt
  have hpos := h.width_pos
  have hmul := mul_le_mul_of_nonneg_right hnext hpos.le
  rw [abs_le] at hlower hlower'
  linarith

/-- Labels tell buckets apart. -/
theorem bucket_eq_of_label_eq {cell cell' : Cell} (hcell : cell.finite? = some x)
    (hcell' : cell'.finite? = some y) (hlabel : b.label cell = b.label cell') :
    value (b.bucket x) = value (b.bucket y) := by
  obtain ⟨hlower, hupper, -⟩ := ends_bounds h hmost hx hsmall
  obtain ⟨hlower', hupper', -⟩ := ends_bounds h hmost hy hsmall'
  have hends := congrArg labelEnds? hlabel
  rw [labelEnds?_label hcell hlower hupper, labelEnds?_label hcell' hlower' hupper',
    Option.some.injEq, Prod.mk.injEq] at hends
  rcases lt_trichotomy (value (b.bucket x)) (value (b.bucket y)) with hlt | heq | hgt
  · exact absurd hends.1 (written_lower_lt h hmost hx hsmall hy hsmall' hlt).ne
  · exact heq
  · exact absurd hends.1 (written_lower_lt h hmost hy hsmall' hx hsmall hgt).ne'

end

include h hmost

theorem separatesBuckets_of_isRegular {cells : List Cell}
    (hnumbers : ∀ x ∈ cells.filterMap Cell.finite?, |value x| ≤ 1000) :
    SeparatesBuckets b cells where
  label_eq_null cell hcell := label_eq_null hcell
  label_eq_iff := by
    have hnumber : ∀ cell ∈ cells, ∀ x, cell.finite? = some x →
        x.isFinite = true ∧ |value x| ≤ 1000 := fun cell hmem x hcell =>
      ⟨isFinite_of_finite? hcell, hnumbers x (List.mem_filterMap.2 ⟨cell, hmem, hcell⟩)⟩
    intro cell hmem x hcell cell' hmem' x' hcell'
    obtain ⟨hx, hsmall⟩ := hnumber cell hmem x hcell
    obtain ⟨hx', hsmall'⟩ := hnumber cell' hmem' x' hcell'
    constructor
    · exact bucket_eq_of_label_eq h hmost hx hsmall hx' hsmall' hcell hcell'
    · exact label_congr h hx hx' hsmall hsmall' hcell hcell'

end

/-! ### Labels of fitted buckets -/

/-- Where every number is in a bucket of a grid, its label names the bucket. -/
theorem namesBuckets_of_inBucket {b : Binning} {cells : List Cell} {k : ℤ} (hw : Moderate b.width)
    (hseparates : SeparatesBuckets b cells)
    (hstart : ∀ cell ∈ cells, ∀ x, cell.finite? = some x →
      value b.start ≤ value x + 2e-9 * value b.width)
    (hbucket : ∀ cell ∈ cells, ∀ x, cell.finite? = some x →
      |value x| ≤ 1000 ∧ ∃ i : ℤ, value (b.bucket x) = i ∧ InBucket b x (k + i)) :
    NamesBuckets 2e-9 b cells := by
  refine ⟨hseparates, hstart, ?exists_ends, ?exists_middle⟩
  case exists_ends =>
    intro cell hcell x hx
    obtain ⟨hsmall, i, -, hbucket⟩ := hbucket cell hcell x hx
    exact ⟨_, _, hbucket.labelEnds? hw hx, hbucket.written_bounds hw hsmall⟩
  case exists_middle =>
    intro cell hcell x hx cell' hcell' x' hx' hnext
    obtain ⟨-, i, hi, hbucket_x⟩ := hbucket cell hcell x hx
    obtain ⟨-, j, hj, hbucket_x'⟩ := hbucket cell' hcell' x' hx'
    -- The second bucket is the next one of the grid too.
    have hj_eq : j = i + 1 := by
      rw [hi, hj] at hnext
      exact_mod_cast hnext
    rw [hj_eq, ← add_assoc] at hbucket_x'
    have hlabel := hbucket_x.labelEnds? hw hx
    rw [hbucket_x.ends_eq hw hbucket_x'] at hlabel
    exact ⟨_, _, _, hlabel, hbucket_x'.labelEnds? hw hx'⟩

/-- The labels of everyday numbers tell buckets apart, for an automatic width
    and for any given one. They name the buckets that hold the numbers, up to
    twice the slack, unless the given width does not fit its places. -/
theorem namesBuckets_of_fit {cells : List Cell} {width : Option Float} {maxBins : ℕ} {b : Binning}
    (hfit : fit cells width maxBins = .ok (some b)) (hbins : maxBins < 2 ^ 64)
    (hnumbers : ∀ x ∈ cells.filterMap Cell.finite?, |value x| ≤ 1000)
    (hleast : 1 / 1000 ≤ value b.width) (hmost : value b.width ≤ 1000) :
    SeparatesBuckets b cells ∧
      ((∀ w, width = some w → FitsPlaces w) → NamesBuckets 2e-9 b cells) := by
  obtain ⟨ends, hspans, hb, hplaces⟩ := exists_aligned hfit hbins hnumbers
  have hfirst := isFinite_of_mem _ hspans.least_mem
  have hfirst_le := hnumbers _ hspans.least_mem
  have hwidth := isFinite_of_le (by linarith) hmost
  have hregular : IsRegular b := by
    rw [hb]
    exact isRegular_aligned (by linarith) hwidth hfirst hfirst_le hmost
  have hseparates := separatesBuckets_of_isRegular hregular hmost hnumbers
  refine ⟨hseparates, fun hfits => ?_⟩
  -- One grid for all numbers: the least one fixes its first point.
  have hw : Moderate b.width := ⟨hleast, hmost, hplaces hfits hleast⟩
  obtain ⟨k, hk⟩ := exists_startsAt hw hfirst hfirst_le
  rw [← hb] at hk
  have hmem : ∀ cell ∈ cells, ∀ x, cell.finite? = some x → x ∈ cells.filterMap Cell.finite? :=
    fun cell hmem x hcell => List.mem_filterMap.2 ⟨cell, hmem, hcell⟩
  apply namesBuckets_of_inBucket hw hseparates
  · intro cell hcell x hx
    have hstart := hk.start_le hfirst_le
    have hle := hspans.least_le x (hmem cell hcell x hx)
    linarith
  · intro cell hcell x hx
    have hsmall := hnumbers x (hmem cell hcell x hx)
    exact ⟨hsmall, exists_inBucket hk hfirst_le (isFinite_of_finite? hx) hsmall
      (hspans.least_le x (hmem cell hcell x hx))⟩

/-- Some numbers and a text. -/
def mixedCells : List Cell := [.num 0.1, .text "a", .num 3.75, .num 7.0]

/-- An automatic width, one that is given and fits its places, and one that does
    not. -/
theorem namesBuckets_of_mixed :
    (∀ x ∈ mixedCells.filterMap Cell.finite?, |value x| ≤ 1000) ∧
    (∃ b, fit mixedCells none 10 = .ok (some b) ∧
      (1 / 1000 ≤ value b.width ∧ value b.width ≤ 1000) ∧ NamesBuckets 2e-9 b mixedCells) ∧
    (∃ b, fit mixedCells (some 0.25) 10 = .ok (some b) ∧ FitsPlaces 0.25 ∧
      (1 / 1000 ≤ value b.width ∧ value b.width ≤ 1000) ∧ NamesBuckets 2e-9 b mixedCells) ∧
    ∃ b, fit mixedCells (some 0.125) 10 = .ok (some b) ∧ ¬ FitsPlaces 0.125 ∧
      (1 / 1000 ≤ value b.width ∧ value b.width ≤ 1000) ∧ SeparatesBuckets b mixedCells := by
  have hnumbers : ∀ x ∈ mixedCells.filterMap Cell.finite?, |value x| ≤ 1000 := by decide +kernel
  have hautomatic : ∃ b ∈ (fit mixedCells none 10).toOption.join,
      1 / 1000 ≤ value b.width ∧ value b.width ≤ 1000 := by decide +kernel
  have hfits : FitsPlaces 0.25 := by decide +kernel
  have hmisfits : ¬ FitsPlaces 0.125 := by decide +kernel
  obtain ⟨b, hmem, hleast, hmost⟩ := hautomatic
  have hfit := eq_ok_of_mem_join hmem
  have hquarters : fit mixedCells (some 0.25) 10 = .ok (some (aligned 0.1 0.25)) := rfl
  have heighths : fit mixedCells (some 0.125) 10 = .ok (some (aligned 0.1 0.125)) := rfl
  refine ⟨hnumbers, ⟨b, hfit, ⟨hleast, hmost⟩, ?_⟩, ⟨_, hquarters, hfits, ?_, ?_⟩,
    ⟨_, heighths, hmisfits, ?_, ?_⟩⟩
  · exact (namesBuckets_of_fit hfit (by decide) hnumbers hleast hmost).2 (by simp)
  · decide +kernel
  · apply (namesBuckets_of_fit hquarters (by decide) hnumbers (by decide +kernel)
      (by decide +kernel)).2
    rintro w hw
    rw [← Option.some.inj hw]
    exact hfits
  · decide +kernel
  · exact (namesBuckets_of_fit heighths (by decide) hnumbers (by decide +kernel)
      (by decide +kernel)).1

/-- Zero, and a number that is slightly below a thousand. -/
def farCells : List Cell := [.num 0.0, .num 999.999999999999]

/-- The slack alone is not enough, since the quotient is rounded too; and a
    width with more digits than its places puts the ends where there is no
    bucket. -/
theorem not_namesBuckets :
    (∃ b, fit farCells (some 0.001) 10 = .ok (some b) ∧
      (∀ x ∈ farCells.filterMap Cell.finite?, |value x| ≤ 1000) ∧
      (1 / 1000 ≤ value b.width ∧ value b.width ≤ 1000) ∧ ¬ NamesBuckets 1e-9 b farCells) ∧
    ∃ b, fit [.num 0.125] (some 0.125) 10 = .ok (some b) ∧
      (∀ x ∈ [Cell.num 0.125].filterMap Cell.finite?, |value x| ≤ 1000) ∧
      (1 / 1000 ≤ value b.width ∧ value b.width ≤ 1000) ∧
      ∀ below, ¬ NamesBuckets below b [.num 0.125] := by
  constructor
  · refine ⟨aligned 0.0 0.001, rfl, by decide +kernel, by decide +kernel, fun h => ?_⟩
    have hends : labelEnds? ((aligned 0.0 0.001).label (.num 999.999999999999)) =
        some (1000, 1000.001) := by decide +kernel
    obtain ⟨lower, upper, hlabel, hlower, -⟩ :=
      h.exists_ends (.num 999.999999999999) (by simp [farCells]) 999.999999999999 rfl
    rw [hends] at hlabel
    obtain ⟨rfl, rfl⟩ := Prod.mk.inj (Option.some.inj hlabel)
    exact absurd hlower (by decide +kernel)
  · refine ⟨aligned 0.125 0.125, rfl, by decide +kernel, by decide +kernel, fun below h => ?_⟩
    have hends : labelEnds? ((aligned 0.125 0.125).label (.num 0.125)) = some (0.01, 0.14) := by
      decide +kernel
    obtain ⟨lower, upper, hlabel, -, -, hwidth⟩ := h.exists_ends (.num 0.125) (by simp) 0.125 rfl
    rw [hends] at hlabel
    obtain ⟨rfl, rfl⟩ := Prod.mk.inj (Option.some.inj hlabel)
    exact absurd hwidth (by decide +kernel)

end PlotGrammar.Binning
