import Mathlib.Data.Int.Interval
import PlotGrammar.Proofs.Binary64.Order
import PlotGrammar.Proofs.Binning.Fitting
import PlotGrammar.Proofs.Binning.Labels
import PlotGrammar.Proofs.Lists

/-! # The order of buckets

  Rounding keeps order, so a greater number is in the same bucket or in a later
  one, whatever the width (`value_bucket_le`), and numbers of one bucket have
  one label (`label_congr`). So there are at most as many labels as there are
  buckets from the first to the last (`length_labels_le`).

  All that this needs is that positions are numbers of 53 bits (`IsRegular`).
-/

namespace PlotGrammar.Binning

open Binary64 (value Nearest)

/-- The different labels of some cells. -/
def labels (b : Binning) (cells : List Cell) : List String :=
  (cells.filterMap fun cell => (b.label cell).text?).eraseDups

/-- The buckets are not so narrow, and the start is not so far away, that the
    position of a number would need more than 53 bits. -/
structure IsRegular (b : Binning) : Prop where
  width_isFinite : b.width.isFinite = true
  width_least : 1 / 10 ^ 10 ≤ value b.width
  width_most : value b.width ≤ 2 ^ (90 : ℤ)
  start_isFinite : b.start.isFinite = true
  start_le : |value b.start| ≤ 2000 + value b.width

theorem IsRegular.width_pos {b : Binning} (h : IsRegular b) : 0 < value b.width :=
  lt_of_lt_of_le (by norm_num) h.width_least

/-! ### Positions -/

section

variable {b : Binning} (h : IsRegular b) {x y : Float} (hx : x.isFinite = true)
  (hy : y.isFinite = true) (hsmall : |value x| ≤ 1000) (hsmall' : |value y| ≤ 1000)

include h hsmall in
theorem abs_distance_le : |value x - value b.start| ≤ 3000 + value b.width := by
  have hstart := h.start_le
  rw [abs_le] at hsmall hstart ⊢
  constructor <;> linarith

include h hx hsmall

/-- The distance from the start. -/
theorem nearest_distance : |value x - value b.start| < 2 ^ (1000 : ℤ) ∧
    Nearest (value x - value b.start) (x - b.start) := by
  have hdistance := abs_distance_le h hsmall
  have hmost := h.width_most
  have hlt : |value x - value b.start| < 2 ^ (1000 : ℤ) :=
    Binary64.abs_lt_of_le (show _ ≤ (2 : ℚ) ^ (91 : ℤ) by norm_num at *; linarith) (by norm_num)
  exact ⟨hlt, Binary64.nearest_sub hx h.start_isFinite hlt⟩

/-- The distance in widths. -/
theorem nearest_ratio :
    |value (x - b.start) / value b.width| ≤ 61 * 10 ^ 12 ∧
      Nearest (value (x - b.start) / value b.width) ((x - b.start) / b.width) := by
  obtain ⟨-, hnearest⟩ := nearest_distance h hx hsmall
  have hdistance := hnearest.abs_value_le
  have hbound := abs_distance_le h hsmall
  have hpos := h.width_pos
  have hleast := h.width_least
  have hratio : |value (x - b.start) / value b.width| ≤ 61 * 10 ^ 12 := by
    rw [abs_div, abs_of_pos hpos, div_le_iff₀ hpos]
    linarith
  exact ⟨hratio, Binary64.nearest_div hnearest.isFinite h.width_isFinite hpos.ne'
    (Binary64.abs_lt_of_le hratio (by norm_num))⟩

/-- The position, with the slack. -/
theorem nearest_position :
    |value ((x - b.start) / b.width) + value slack| ≤ 123 * 10 ^ 12 ∧
      Nearest (value ((x - b.start) / b.width) + value slack)
        ((x - b.start) / b.width + slack) := by
  obtain ⟨hslack, hleast, hmost⟩ := slack_bounds
  obtain ⟨hbound, hnearest⟩ := nearest_ratio h hx hsmall
  have hratio := hnearest.abs_value_le
  have hposition : |value ((x - b.start) / b.width) + value slack| ≤ 123 * 10 ^ 12 := by
    rw [abs_le] at hratio ⊢
    constructor <;> linarith
  exact ⟨hposition, Binary64.nearest_add hnearest.isFinite hslack
    (Binary64.abs_lt_of_le hposition (by norm_num))⟩

/-- The bucket of a number is its position, rounded down. -/
theorem value_bucket : (b.bucket x).isFinite = true ∧
    value (b.bucket x) = ⌊value ((x - b.start) / b.width + slack)⌋ := by
  obtain ⟨hbound, hnearest⟩ := nearest_position h hx hsmall
  have hposition := hnearest.abs_value_le
  exact Binary64.value_floor hnearest.isFinite (by linarith)

include hy hsmall'

/-- A greater number is not in an earlier bucket. -/
theorem value_bucket_le (hle : value x ≤ value y) : value (b.bucket x) ≤ value (b.bucket y) := by
  obtain ⟨hslack, -, -⟩ := slack_bounds
  obtain ⟨hdistance, hdistance_x⟩ := nearest_distance h hx hsmall
  obtain ⟨hdistance', hdistance_y⟩ := nearest_distance h hy hsmall'
  have hdistance_le := Binary64.value_sub_le_value_sub hx hy h.start_isFinite hdistance hdistance' hle
  obtain ⟨hratio, hratio_x⟩ := nearest_ratio h hx hsmall
  obtain ⟨hratio', hratio_y⟩ := nearest_ratio h hy hsmall'
  have hratio_le := Binary64.value_div_le_value_div hdistance_x.isFinite hdistance_y.isFinite
    h.width_isFinite h.width_pos (Binary64.abs_lt_of_le hratio (by norm_num))
    (Binary64.abs_lt_of_le hratio' (by norm_num)) hdistance_le
  obtain ⟨hposition, -⟩ := nearest_position h hx hsmall
  obtain ⟨hposition', -⟩ := nearest_position h hy hsmall'
  have hposition_le := Binary64.value_add_le_value_add hratio_x.isFinite hratio_y.isFinite hslack
    (Binary64.abs_lt_of_le hposition (by norm_num))
    (Binary64.abs_lt_of_le hposition' (by norm_num)) hratio_le
  rw [(value_bucket h hx hsmall).2, (value_bucket h hy hsmall').2]
  exact_mod_cast Int.floor_le_floor hposition_le

end

/-! ### Labels -/

theorem places_le_eleven {width : Float} (h : 1 / 10 ^ 10 ≤ value width) : places width ≤ 11 := by
  have horder := Decimal.le_order (x := width) (e := -10) (by linarith) (by norm_num at h ⊢; exact h)
  have hfloor := Decimal.floorLog_eq_or width
  unfold places
  split
  · omega
  · omega

/-- Both zeros are rounded to the positive one. -/
theorem roundTo_of_value_eq_zero {width x : Float} (hplaces : places width ≤ 11)
    (hx : x.isFinite = true) (hzero : value x = 0) : roundTo width x = 0.0 := by
  obtain ⟨hscale_finite, hscale⟩ := value_scale width (by omega)
  have hproduct := Binary64.nearest_mul hx hscale_finite (by rw [hzero, zero_mul, abs_zero]; positivity)
  rw [hzero, zero_mul] at hproduct
  have hproduct_zero := hproduct.value_eq_of_isDouble Binary64.isDouble_zero
  obtain ⟨hround, hround_zero⟩ := Binary64.value_round hproduct.isFinite (k := 0)
    (by rw [hproduct_zero, abs_zero]; norm_num) (by rw [hproduct_zero]; norm_num)
  rw [Int.cast_zero] at hround_zero
  have hquotient := Binary64.nearest_div hround hscale_finite (by rw [hscale]; positivity)
    (by rw [hround_zero, zero_div, abs_zero]; positivity)
  rw [hround_zero, zero_div] at hquotient
  exact roundTo_of_quotient_eq_zero hquotient.isFinite
    (hquotient.value_eq_of_isDouble Binary64.isDouble_zero)

/-- Rounding to places only looks at the number. -/
theorem roundTo_eq_of_value_eq {width x y : Float} (hplaces : places width ≤ 11)
    (hx : x.isFinite = true) (hy : y.isFinite = true) (h : value x = value y) :
    roundTo width x = roundTo width y := by
  by_cases hzero : value x = 0
  · rw [roundTo_of_value_eq_zero hplaces hx hzero,
      roundTo_of_value_eq_zero hplaces hy (h ▸ hzero)]
  · rw [Binary64.eq_of_value_eq h hzero]

section

variable {b : Binning} (h : IsRegular b)
include h

/-- The first bucket starts at the start. -/
theorem value_start_add {index : Float} (hindex : index.isFinite = true) (hzero : value index = 0) :
    (b.start + index * b.width).isFinite = true ∧
      value (b.start + index * b.width) = value b.start := by
  have hproduct := Binary64.nearest_mul hindex h.width_isFinite
    (by rw [hzero, zero_mul, abs_zero]; positivity)
  rw [hzero, zero_mul] at hproduct
  have hproduct_zero := hproduct.value_eq_of_isDouble Binary64.isDouble_zero
  have hstart := h.start_le
  have hmost := h.width_most
  have hsum := Binary64.nearest_add h.start_isFinite hproduct.isFinite (by
    rw [hproduct_zero, add_zero]
    exact Binary64.abs_lt_of_le (show _ ≤ (2 : ℚ) ^ (91 : ℤ) by norm_num at *; linarith) (by norm_num))
  rw [hproduct_zero, add_zero] at hsum
  exact ⟨hsum.isFinite, hsum.value_eq_of_isDouble (Binary64.isDouble_value h.start_isFinite)⟩

variable {x y : Float} (hx : x.isFinite = true) (hy : y.isFinite = true)
  (hsmall : |value x| ≤ 1000) (hsmall' : |value y| ≤ 1000)
include hx hy hsmall hsmall'

/-- Numbers of one bucket have the same ends. -/
theorem ends_congr (heq : value (b.bucket x) = value (b.bucket y)) : b.ends x = b.ends y := by
  obtain ⟨hbucket, -⟩ := value_bucket h hx hsmall
  obtain ⟨hbucket', -⟩ := value_bucket h hy hsmall'
  have hlower : roundTo b.width (b.start + b.bucket x * b.width) =
      roundTo b.width (b.start + b.bucket y * b.width) := by
    by_cases hzero : value (b.bucket x) = 0
    · -- The first bucket may have either zero as its position.
      obtain ⟨hfinite, hvalue⟩ := value_start_add h hbucket hzero
      obtain ⟨hfinite', hvalue'⟩ := value_start_add h hbucket' (heq ▸ hzero)
      exact roundTo_eq_of_value_eq (places_le_eleven h.width_least) hfinite hfinite'
        (hvalue.trans hvalue'.symm)
    · rw [Binary64.eq_of_value_eq heq hzero]
  unfold ends
  rw [hlower]

/-- Numbers of one bucket have the same label. -/
theorem label_congr {cell cell' : Cell} (hcell : cell.finite? = some x)
    (hcell' : cell'.finite? = some y) (heq : value (b.bucket x) = value (b.bucket y)) :
    b.label cell = b.label cell' := by
  rw [label_eq_text hcell, label_eq_text hcell', ends_congr h hx hy hsmall hsmall' heq]

end

/-! ### Counting -/

/-- Elements that can be told apart by whole numbers are not more than these. -/
theorem length_le_of_apart {α : Type} {xs : List α} (hnodup : xs.Nodup) {R : ℤ → α → Prop}
    {first last : ℤ} (hle : first ≤ last + 1)
    (hexists : ∀ x ∈ xs, ∃ i, first ≤ i ∧ i ≤ last ∧ R i x)
    (happart : ∀ i x y, R i x → R i y → x = y) : (xs.length : ℤ) ≤ last - first + 1 := by
  choose! index hfirst hlast hindex using hexists
  have hinjective : ∀ x ∈ xs, ∀ y ∈ xs, index x = index y → x = y := by
    intro x hx y hy heq
    apply happart (index x) x y (hindex x hx)
    rw [heq]
    exact hindex y hy
  have hsubset : (xs.map index).toFinset ⊆ Finset.Icc first last := by
    intro i hi
    obtain ⟨x, hx, rfl⟩ := List.mem_map.1 (List.mem_toFinset.1 hi)
    exact Finset.mem_Icc.2 ⟨hfirst x hx, hlast x hx⟩
  have hcard := Finset.card_le_card hsubset
  rw [List.toFinset_card_of_nodup (hnodup.map_on hinjective), List.length_map, Int.card_Icc] at hcard
  omega

/-- There are not more labels than buckets from that of the least number to
    that of the greatest. -/
theorem length_labels_le {b : Binning} (h : IsRegular b) {cells : List Cell} {ends : Float × Float}
    (hspans : Spans (cells.filterMap Cell.finite?) ends)
    (hsmall : ∀ x ∈ cells.filterMap Cell.finite?, |value x| ≤ 1000) {first last : ℤ}
    (hfirst : value (b.bucket ends.1) = first) (hlast : value (b.bucket ends.2) = last) :
    ((b.labels cells).length : ℤ) ≤ last - first + 1 := by
  have hfinite : ∀ x ∈ cells.filterMap Cell.finite?, x.isFinite = true := isFinite_of_mem
  have hbucket : ∀ x ∈ cells.filterMap Cell.finite?, ∀ y ∈ cells.filterMap Cell.finite?,
      value x ≤ value y → value (b.bucket x) ≤ value (b.bucket y) := fun x hx y hy =>
    value_bucket_le h (hfinite x hx) (hfinite y hy) (hsmall x hx) (hsmall y hy)
  apply length_le_of_apart (nodup_eraseDups _) (R := fun i text => ∃ cell ∈ cells, ∃ x,
    cell.finite? = some x ∧ value (b.bucket x) = i ∧ b.label cell = .text text)
  · have hle := hbucket _ hspans.least_mem _ hspans.greatest_mem
      (hspans.least_le _ hspans.greatest_mem)
    rw [hfirst, hlast] at hle
    have hcast : first ≤ last := by exact_mod_cast hle
    omega
  · intro text htext
    obtain ⟨cell, hcell, hlabel⟩ := List.mem_filterMap.1 (mem_of_mem_eraseDups htext)
    cases hx : cell.finite? with
    | none =>
      rw [label_eq_null hx] at hlabel
      cases hlabel
    | some x =>
      have hmem : x ∈ cells.filterMap Cell.finite? := List.mem_filterMap.2 ⟨cell, hcell, hx⟩
      obtain ⟨-, hvalue⟩ := value_bucket h (hfinite x hmem) (hsmall x hmem)
      have hleast := hbucket _ hspans.least_mem _ hmem (hspans.least_le x hmem)
      have hmost := hbucket _ hmem _ hspans.greatest_mem (hspans.le_greatest x hmem)
      rw [hvalue, hfirst] at hleast
      rw [hvalue, hlast] at hmost
      rw [label_eq_text hx] at hlabel
      refine ⟨_, by exact_mod_cast hleast, by exact_mod_cast hmost, cell, hcell, x, hx, hvalue, ?_⟩
      rw [label_eq_text hx]
      exact congrArg Cell.text (Option.some.inj hlabel)
  · rintro i text text' ⟨cell, hcell, x, hx, hi, hlabel⟩ ⟨cell', hcell', y, hy, hj, hlabel'⟩
    have hmem : x ∈ cells.filterMap Cell.finite? := List.mem_filterMap.2 ⟨cell, hcell, hx⟩
    have hmem' : y ∈ cells.filterMap Cell.finite? := List.mem_filterMap.2 ⟨cell', hcell', hy⟩
    have hsame := label_congr h (hfinite x hmem) (hfinite y hmem') (hsmall x hmem) (hsmall y hmem')
      hx hy (hi.trans hj.symm)
    rw [hlabel, hlabel'] at hsame
    exact Cell.text.inj hsame

end PlotGrammar.Binning
