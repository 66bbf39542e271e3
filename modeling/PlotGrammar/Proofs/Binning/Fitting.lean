import PlotGrammar.Proofs.Binning.Widths
import PlotGrammar.Proofs.Results

/-! # Fitted buckets

  The buckets that are fitted to some cells are aligned to the least number
  among them (`exists_aligned`), and an automatic width stays nice while it is
  made larger (`nice_of_widened`).
-/

namespace PlotGrammar.Binning

open Binary64 (value)

/-! ### The range of some numbers -/

theorem isFinite_of_finite? {cell : Cell} {x : Float} (h : cell.finite? = some x) :
    x.isFinite = true :=
  (Option.filter_eq_some_iff.1 h).2

theorem isFinite_of_mem {cells : List Cell} :
    ∀ x ∈ cells.filterMap Cell.finite?, x.isFinite = true := by
  intro x hx
  obtain ⟨cell, -, hcell⟩ := List.mem_filterMap.1 hx
  exact isFinite_of_finite? hcell

/-- The numbers are between the two ends, which are among them. -/
structure Spans (xs : List Float) (ends : Float × Float) : Prop where
  least_mem : ends.1 ∈ xs
  greatest_mem : ends.2 ∈ xs
  least_le : ∀ x ∈ xs, value ends.1 ≤ value x
  le_greatest : ∀ x ∈ xs, value x ≤ value ends.2

theorem spans_singleton (x : Float) : Spans [x] (x, x) where
  least_mem := List.mem_singleton_self x
  greatest_mem := List.mem_singleton_self x
  least_le y hy := by rw [List.mem_singleton.1 hy]
  le_greatest y hy := by rw [List.mem_singleton.1 hy]

/-- One more number widens the range to itself. -/
theorem Spans.concat {xs : List Float} {ends : Float × Float} (h : Spans xs ends)
    (hxs : ∀ x ∈ xs, x.isFinite = true) {y : Float} (hy : y.isFinite = true) :
    Spans (xs ++ [y]) (if y < ends.1 then y else ends.1, if ends.2 < y then y else ends.2) := by
  have hleast := Binary64.lt_iff_value hy (hxs _ h.least_mem)
  have hgreatest := Binary64.lt_iff_value (hxs _ h.greatest_mem) hy
  have hmem : ∀ x, x ∈ xs ++ [y] ↔ x ∈ xs ∨ x = y := by simp
  refine ⟨?_, ?_, ?_, ?_⟩
  · rw [hmem]
    dsimp only
    split
    · exact .inr rfl
    · exact .inl h.least_mem
  · rw [hmem]
    dsimp only
    split
    · exact .inr rfl
    · exact .inl h.greatest_mem
  · intro x hx
    dsimp only
    rcases (hmem x).1 hx with hx | rfl
    · split
      · next hlt => exact (hleast.1 hlt).le.trans (h.least_le x hx)
      · exact h.least_le x hx
    · split
      · exact le_refl _
      · next hnot => exact not_lt.1 (mt hleast.2 hnot)
  · intro x hx
    dsimp only
    rcases (hmem x).1 hx with hx | rfl
    · split
      · next hlt => exact (h.le_greatest x hx).trans (hgreatest.1 hlt).le
      · exact h.le_greatest x hx
    · split
      · exact le_refl _
      · next hnot => exact not_lt.1 (mt hgreatest.2 hnot)

theorem Spans.foldl {xs ys : List Float} {ends : Float × Float} (h : Spans xs ends)
    (hfinite : ∀ x ∈ xs ++ ys, x.isFinite = true) :
    Spans (xs ++ ys) (ys.foldl (fun ends y =>
      (if y < ends.1 then y else ends.1, if ends.2 < y then y else ends.2)) ends) := by
  induction ys generalizing xs ends with
  | nil => rwa [List.append_nil]
  | cons y ys ih =>
    have hconcat := h.concat (fun x hx => hfinite x (List.mem_append_left _ hx))
      (hfinite y (by simp))
    rw [List.append_cons] at hfinite ⊢
    exact ih hconcat hfinite

/-- The least and the greatest number are found. -/
theorem spans_of_range? {xs : List Float} {ends : Float × Float} (h : range? xs = some ends)
    (hfinite : ∀ x ∈ xs, x.isFinite = true) : Spans xs ends := by
  cases xs with
  | nil => cases h
  | cons x xs =>
    rw [← Option.some.inj h]
    exact (spans_singleton x).foldl hfinite

/-- Where there is a number, there is a range. -/
theorem exists_range {cells : List Cell} (hsome : ∃ cell ∈ cells, cell.finite?.isSome) :
    ∃ ends, range? (cells.filterMap Cell.finite?) = some ends ∧
      Spans (cells.filterMap Cell.finite?) ends := by
  obtain ⟨cell, hcell, hnumber⟩ := hsome
  obtain ⟨x, hx⟩ := Option.isSome_iff_exists.1 hnumber
  have hmem : x ∈ cells.filterMap Cell.finite? := List.mem_filterMap.2 ⟨cell, hcell, hx⟩
  obtain ⟨ends, hends⟩ : ∃ ends, range? (cells.filterMap Cell.finite?) = some ends := by
    cases hnumbers : cells.filterMap Cell.finite? with
    | nil =>
      rw [hnumbers] at hmem
      cases hmem
    | cons y ys => exact ⟨_, rfl⟩
  exact ⟨ends, hends, spans_of_range? hends isFinite_of_mem⟩

/-! ### Wider buckets -/

/-- The size of the end that is farther from zero. -/
def reach (least greatest : Float) : Float :=
  if greatest.abs < least.abs then least.abs else greatest.abs

theorem eq_aligned_of_align {least width : Float} {b : Binning} (h : align least width = .ok b) :
    b = aligned least width := by
  unfold align at h
  split at h
  · cases h
  · exact (Except.ok.inj h).symm

/-- A positive width has a first decimal place. -/
theorem align_of_pos {least width : Float} (hwidth : width.isFinite = true)
    (hpos : 0 < value width) : align least width = .ok (aligned least width) := by
  unfold align
  rw [if_neg]
  rw [Binary64.beq_iff_value hwidth (by decide), Binary64.value_zero]
  exact hpos.ne'

/-- One step of making the width larger, for buckets that can be counted. -/
theorem widened_succ {least greatest : Float} {b : Binning} {count : ℕ}
    (hcount : b.bucketCount greatest = .ok count) (maxBins steps : ℕ) :
    widened least greatest maxBins (steps + 1) b =
      if count ≤ max maxBins 1 ∨ reach least greatest < b.width then .ok b
      else (align least (widen b.width)).bind (widened least greatest maxBins steps) := by
  rw [widened, hcount]
  apply if_congr _ rfl rfl
  rw [Bool.or_eq_true, decide_eq_true_eq, decide_eq_true_eq, reach]

/-- What holds of a width and of the width after it, unless it reaches beyond
    both ends, holds of the width of the buckets that are widened. -/
theorem widened_induction {least greatest : Float} {maxBins : ℕ} {P : Float → Prop}
    (hstep : ∀ width, P width → ¬ reach least greatest < width → P (widen width)) {steps : ℕ}
    {width : Float} {b : Binning} (hwidth : P width)
    (hwidened : widened least greatest maxBins steps (aligned least width) = .ok b) :
    ∃ width', P width' ∧ b = aligned least width' := by
  induction steps generalizing width with
  | zero => exact ⟨width, hwidth, (Except.ok.inj hwidened).symm⟩
  | succ steps ih =>
    cases hcount : (aligned least width).bucketCount greatest with
    | error cause =>
      rw [widened, hcount] at hwidened
      cases hwidened
    | ok count =>
      rw [widened_succ hcount] at hwidened
      split at hwidened
      · exact ⟨width, hwidth, (Except.ok.inj hwidened).symm⟩
      · next hmore =>
        cases halign : align least (widen width) with
        | error cause =>
          rw [show (aligned least width).width = width from rfl, halign] at hwidened
          cases hwidened
        | ok wider =>
          rw [show (aligned least width).width = width from rfl, halign,
            eq_aligned_of_align halign] at hwidened
          exact ih (hstep width hwidth (not_or.1 hmore).2) hwidened

section

variable {least greatest : Float} (hleast : least.isFinite = true) (hleast_le : |value least| ≤ 1000)
  (hgreatest : greatest.isFinite = true) (hgreatest_le : |value greatest| ≤ 1000)
include hleast hleast_le hgreatest hgreatest_le

/-- A width reaches beyond both ends if it is larger than the size of both. -/
theorem reach_lt_iff {width : Float} (hwidth : width.isFinite = true) :
    reach least greatest < width ↔
      |value least| < value width ∧ |value greatest| < value width := by
  have hsmall : (1000 : ℚ) < 2 ^ (1024 : ℤ) :=
    (by norm_num : (1000 : ℚ) < 2 ^ (10 : ℤ)).trans_le
      (zpow_le_zpow_right₀ (by norm_num) (by norm_num))
  obtain ⟨hfinite, hvalue⟩ := Binary64.value_abs hleast (hleast_le.trans_lt hsmall)
  obtain ⟨hfinite', hvalue'⟩ := Binary64.value_abs hgreatest (hgreatest_le.trans_lt hsmall)
  have hlt := Binary64.lt_iff_value hfinite' hfinite
  rw [hvalue, hvalue'] at hlt
  unfold reach
  split
  · next hfar =>
    rw [Binary64.lt_iff_value hfinite hwidth, hvalue]
    exact ⟨fun h => ⟨h, (hlt.1 hfar).trans h⟩, fun h => h.1⟩
  · next hnear =>
    rw [Binary64.lt_iff_value hfinite' hwidth, hvalue']
    exact ⟨fun h => ⟨(not_lt.1 (mt hlt.2 hnear)).trans_lt h, h⟩, fun h => h.2⟩

/-- A width that does not reach beyond both ends is not large. -/
theorem le_of_not_reach_lt {width : Float} (hwidth : width.isFinite = true)
    (hreach : ¬ reach least greatest < width) : value width ≤ 1000 := by
  by_contra hlarge
  rw [not_le] at hlarge
  exact hreach ((reach_lt_iff hleast hleast_le hgreatest hgreatest_le hwidth).2
    ⟨hleast_le.trans_lt hlarge, hgreatest_le.trans_lt hlarge⟩)

/-- The width of buckets that are widened stays nice. -/
theorem nice_of_widened {maxBins steps : ℕ} {width : Float} {b : Binning} (hwidth : Nice width)
    (hwidened : widened least greatest maxBins steps (aligned least width) = .ok b) :
    ∃ width', Nice width' ∧ b = aligned least width' := by
  apply widened_induction _ hwidth hwidened
  intro width hnice hreach
  exact nice_widen hnice
    (le_of_not_reach_lt hleast hleast_le hgreatest hgreatest_le hnice.isFinite hreach)

/-- The span of two numbers that are not large is not large. -/
theorem span_lt (hle : value least ≤ value greatest) : value (greatest - least) < 10 ^ 4 := by
  rw [abs_le] at hleast_le hgreatest_le
  have hspan : |value greatest - value least| ≤ 2000 := abs_le.2 ⟨by linarith, by linarith⟩
  have hnearest := Binary64.nearest_sub hgreatest hleast
    (Binary64.abs_lt_of_le hspan (by norm_num))
  obtain ⟨-, hdouble⟩ := hnearest.bounds (sub_nonneg.2 hle)
  linarith

end

/-! ### The buckets of some cells -/

/-- The buckets are aligned to the least number, with a width that fits its
    places unless it is given and does not, or is below a thousandth. -/
theorem exists_aligned {cells : List Cell} {width : Option Float} {maxBins : ℕ} {b : Binning}
    (hfit : fit cells width maxBins = .ok (some b)) (hbins : maxBins < 2 ^ 64)
    (hnumbers : ∀ x ∈ cells.filterMap Cell.finite?, |value x| ≤ 1000) :
    ∃ ends, Spans (cells.filterMap Cell.finite?) ends ∧ b = aligned ends.1 b.width ∧
      ((∀ w, width = some w → FitsPlaces w) → 1 / 1000 ≤ value b.width → FitsPlaces b.width) := by
  have hfinite : ∀ x ∈ cells.filterMap Cell.finite?, x.isFinite = true := isFinite_of_mem
  rw [fit] at hfit
  cases hrange : range? (cells.filterMap Cell.finite?) with
  | none =>
    rw [hrange] at hfit
    cases hfit
  | some ends =>
    have hspans := spans_of_range? hrange hfinite
    obtain ⟨hleast, hgreatest, hleast_le, -⟩ := id hspans
    rw [hrange] at hfit
    cases width with
    | some width =>
      obtain ⟨b', halign, heq⟩ := bind_eq_ok_iff.1 hfit
      cases heq
      rw [eq_aligned_of_align halign]
      exact ⟨ends, hspans, rfl, fun hfits _ => hfits width rfl⟩
    | none =>
      obtain ⟨width, hchosen, hrest⟩ := bind_eq_ok_iff.1 hfit
      obtain ⟨first, halign, hrest⟩ := bind_eq_ok_iff.1 hrest
      obtain ⟨b', hwidened, heq⟩ := bind_eq_ok_iff.1 hrest
      cases heq
      rw [eq_aligned_of_align halign] at hwidened
      have hspan := span_lt (hfinite _ hleast) (hnumbers _ hleast) (hfinite _ hgreatest)
        (hnumbers _ hgreatest) (hleast_le _ hgreatest)
      have hnice : Nice width := nice_niceWidth hspan hbins hchosen
      obtain ⟨width', hwidth', rfl⟩ := nice_of_widened (hfinite _ hleast) (hnumbers _ hleast)
        (hfinite _ hgreatest) (hnumbers _ hgreatest) hnice hwidened
      exact ⟨ends, hspans, rfl, fun _ => hwidth'.fits⟩

end PlotGrammar.Binning
