import PlotGrammar.Proofs.Binning.Ladder
import PlotGrammar.Proofs.Binning.Positions

/-! # The start of aligned buckets

  The first bucket starts at a multiple of the width next below the least
  number, rounded to the places of the width. Rounding moves it by little of
  the width (`abs_roundTo_sub_le`), so it is never a whole width above the least
  number (`start_bounds`), and buckets that are not beyond all numbers are
  regular (`isRegular_aligned`).

  A width that is larger than the least number is exact, so there the start is
  zero or one width away from it (`exists_startsAround`).
-/

namespace PlotGrammar.Binning

open Binary64 (value Nearest)

/-! ### Rounding to places -/

/-- The last place of a width is at most a fifth of it: the place before it is
    that of the leading digit, or close to it from above. -/
theorem five_le_mul_places {width : Float} (hwidth : width.isFinite = true)
    (hpos : 0 < value width) : 5 ≤ value width * 10 ^ places width := by
  have hlog := Decimal.ten_zpow_floorLog_le hwidth hpos
  have hplaces : 1 ≤ Decimal.floorLog width + places width := by
    have hlt : 0.0 < width := (lt_iff_pos hwidth).2 hpos
    unfold places
    rw [if_pos (by simp [hwidth, hlt])]
    omega
  have hten := Decimal.ten_zpow_le hplaces
  rw [zpow_one, zpow_add₀ (by norm_num), zpow_natCast] at hten
  have hmul := mul_le_mul_of_nonneg_right hlog (by positivity : (0 : ℚ) ≤ 10 ^ places width)
  linarith

section

variable {width : Float} (hleast : 1 / 10 ^ 10 ≤ value width)
include hleast

/-- A number has a whole number of last places, up to a little more than a half. -/
theorem exists_lastPlaces {x : Float} (hx : x.isFinite = true) (hsmall : |value x| ≤ 6000) :
    (Binary64.round (x * scale width)).isFinite = true ∧
      ∃ n : ℤ, value (Binary64.round (x * scale width)) = n ∧
        |n - value x * 10 ^ places width| ≤ 9 / 16 := by
  have hplaces := places_le_eleven hleast
  obtain ⟨hscale_finite, hscale⟩ := value_scale width (by omega)
  have hten : (10 : ℚ) ^ places width ≤ 10 ^ 11 := pow_le_pow_right₀ (by norm_num) hplaces
  have hpos : (0 : ℚ) < 10 ^ places width := by positivity
  have hbound : |value x * 10 ^ places width| ≤ 6 * 10 ^ 14 := by
    rw [abs_mul, abs_of_pos hpos]
    exact (mul_le_mul hsmall hten hpos.le (by norm_num)).trans (by norm_num)
  have hproduct := Binary64.nearest_mul hx hscale_finite (by
    rw [hscale]
    exact Binary64.abs_lt_of_le hbound (by norm_num))
  rw [hscale] at hproduct
  have herror := hproduct.error (k := 50) (by norm_num) (hbound.trans_lt (by norm_num))
  have hproduct_le := hproduct.abs_value_le
  obtain ⟨hround, n, hn, hclose⟩ := Binary64.exists_round hproduct.isFinite (by linarith)
  refine ⟨hround, n, hn, ?_⟩
  have htriangle := abs_sub_le (n : ℚ) (value (x * scale width))
    (value x * 10 ^ places width)
  norm_num at herror
  linarith

variable (hwidth : width.isFinite = true)
include hwidth

/-- Rounding to places moves a number by little of the width. -/
theorem abs_roundTo_sub_le {x : Float} (hx : x.isFinite = true) (hsmall : |value x| ≤ 6000) :
    (roundTo width x).isFinite = true ∧ |value (roundTo width x) - value x| ≤ 1 / 8 * value width := by
  obtain ⟨hround, n, hn, hclose⟩ := exists_lastPlaces hleast hx hsmall
  have hplaces := places_le_eleven hleast
  obtain ⟨hscale_finite, hscale⟩ := value_scale width (by omega)
  have hlast := five_le_mul_places hwidth (lt_of_lt_of_le (by norm_num) hleast)
  have hone : (1 : ℚ) ≤ 10 ^ places width := one_le_pow₀ (by norm_num)
  have hpos : (0 : ℚ) < 10 ^ places width := by positivity
  have hsplit : n / 10 ^ places width - value x =
      (n - value x * 10 ^ places width) / 10 ^ places width := by field_simp
  have hnear : |n / 10 ^ places width - value x| ≤ 9 / 80 * value width := by
    rw [hsplit, abs_div, abs_of_pos hpos, div_le_iff₀ hpos]
    linarith
  have hsize : |(n : ℚ) / 10 ^ places width| ≤ 6001 := by
    have hnear_one : |n / 10 ^ places width - value x| ≤ 1 := by
      rw [hsplit, abs_div, abs_of_pos hpos, div_le_iff₀ hpos]
      linarith
    have htriangle := abs_sub_abs_le_abs_sub ((n : ℚ) / 10 ^ places width) (value x)
    linarith
  have hquotient := Binary64.nearest_div hround hscale_finite (by rw [hscale]; exact hpos.ne') (by
    rw [hscale, hn]
    exact Binary64.abs_lt_of_le hsize (by norm_num))
  rw [hscale, hn] at hquotient
  have herror := hquotient.error (k := 13) (by norm_num) (hsize.trans_lt (by norm_num))
  norm_num at herror
  obtain ⟨hfinite, hvalue⟩ := value_roundTo hquotient.isFinite
  rw [← hvalue] at herror
  refine ⟨hfinite, ?_⟩
  have htriangle := abs_sub_le (value (roundTo width x)) (n / 10 ^ places width) (value x)
  linarith

/-! ### Multiples of the width -/

/-- The multiple of the width at or below a number, up to a hundredth. -/
theorem index_bounds {x : Float} (hx : x.isFinite = true) (hsmall : |value x| ≤ 5000) :
    (Binary64.floor (x / width + slack)).isFinite = true ∧
      value (Binary64.floor (x / width + slack)) * value width ≤
        value x + 1 / 100 * value width ∧
      value x ≤ value (Binary64.floor (x / width + slack)) * value width +
        101 / 100 * value width := by
  obtain ⟨hslack, hslack_least, hslack_most⟩ := slack_bounds
  have hpos : 0 < value width := lt_of_lt_of_le (by norm_num) hleast
  have hratio : |value x / value width| ≤ 5 * 10 ^ 13 := by
    rw [abs_div, abs_of_pos hpos, div_le_iff₀ hpos]
    linarith
  have hquotient := Binary64.nearest_div hx hwidth hpos.ne'
    (Binary64.abs_lt_of_le hratio (by norm_num))
  have herror := hquotient.error (k := 46) (by norm_num) (hratio.trans_lt (by norm_num))
  rw [abs_le] at hratio herror
  norm_num at herror
  have hbound : |value (x / width) + value slack| ≤ 5 * 10 ^ 13 + 1 :=
    abs_le.2 ⟨by linarith, by linarith⟩
  have hsum := Binary64.nearest_add hquotient.isFinite hslack
    (Binary64.abs_lt_of_le hbound (by norm_num))
  have herror' := hsum.error (k := 46) (by norm_num) (hbound.trans_lt (by norm_num))
  rw [abs_le] at hbound herror'
  norm_num at herror'
  obtain ⟨hfloor, hvalue⟩ := Binary64.value_floor hsum.isFinite
    (abs_lt.2 ⟨by norm_num; linarith, by norm_num; linarith⟩)
  have hle := Int.floor_le (value (x / width + slack))
  have hlt := Int.lt_floor_add_one (value (x / width + slack))
  rw [← hvalue] at hle hlt
  have hsplit : value x = value x / value width * value width :=
    (div_mul_cancel₀ _ hpos.ne').symm
  refine ⟨hfloor, ?_, ?_⟩
  · rw [hsplit, ← add_mul]
    exact mul_le_mul_of_nonneg_right (by linarith) hpos.le
  · rw [hsplit, ← add_mul]
    exact mul_le_mul_of_nonneg_right (by linarith) hpos.le

section

variable {least : Float} (hfinite : least.isFinite = true) (hsmall : |value least| ≤ 1000)
  (hmost : value width ≤ 1000)
include hfinite hsmall hmost

/-- The first bucket starts around the least number, and not a width above it. -/
theorem start_bounds : (aligned least width).start.isFinite = true ∧
    value (aligned least width).start ≤ value least + value width ∧
    value least ≤ value (aligned least width).start + 2 * value width := by
  obtain ⟨hfloor, hle, hge⟩ := index_bounds hleast hwidth hfinite (hsmall.trans (by norm_num))
  rw [abs_le] at hsmall
  have hbound : |value (Binary64.floor (least / width + slack)) * value width| ≤ 2010 :=
    abs_le.2 ⟨by linarith, by linarith⟩
  have hproduct := Binary64.nearest_mul hfloor hwidth
    (Binary64.abs_lt_of_le hbound (by norm_num))
  have herror := hproduct.error (k := 11) (by norm_num) (hbound.trans_lt (by norm_num))
  norm_num at herror
  rw [abs_le] at hbound herror
  obtain ⟨hstart, hclose⟩ := abs_roundTo_sub_le hleast hwidth hproduct.isFinite
    (abs_le.2 ⟨by linarith, by linarith⟩)
  rw [abs_le] at hclose
  have heq : (aligned least width).start =
      roundTo width (Binary64.floor (least / width + slack) * width) := rfl
  rw [heq]
  exact ⟨hstart, by linarith, by linarith⟩

/-- Widths that are not beyond all numbers make regular buckets. -/
theorem isRegular_aligned : IsRegular (aligned least width) := by
  obtain ⟨hstart, hle, hge⟩ := start_bounds hleast hwidth hfinite hsmall hmost
  refine ⟨hwidth, hleast, hmost.trans (by norm_num), hstart, ?_⟩
  show |value (aligned least width).start| ≤ 2000 + value width
  rw [abs_le] at hsmall ⊢
  constructor <;> linarith

end

end

/-! ### Wide buckets -/

/-- Zero, or one step away from it on the side of a number. -/
def IsNextToZero (x : ℚ) (k : ℤ) : Prop :=
  0 ≤ x ∧ 0 ≤ k ∧ k ≤ 1 ∨ x < 0 ∧ -1 ≤ k ∧ k ≤ 0

theorem IsNextToZero.bounds {x : ℚ} {k : ℤ} (h : IsNextToZero x k) : -1 ≤ k ∧ k ≤ 1 := by
  rcases h with ⟨-, hle, hge⟩ | ⟨-, hle, hge⟩
  · exact ⟨by omega, hge⟩
  · exact ⟨hle, by omega⟩

/-- So many widths are less than a width above the number. -/
theorem IsNextToZero.mul_le {x w : ℚ} {k : ℤ} (h : IsNextToZero x k) (hnear : |x| < w) :
    k * w ≤ x + w := by
  have hpos : 0 < w := (abs_nonneg x).trans_lt hnear
  rcases h with ⟨hx, -, hk⟩ | ⟨-, -, hk⟩
  · have hle : (k : ℚ) ≤ 1 := by exact_mod_cast hk
    linarith [mul_le_mul_of_nonneg_right hle hpos.le]
  · have hle : (k : ℚ) ≤ 0 := by exact_mod_cast hk
    linarith [mul_nonpos_of_nonpos_of_nonneg hle hpos.le, (abs_lt.1 hnear).1]

/-- One width to either side of zero is exact, and so is zero. -/
theorem value_roundTo_of_isExact {width x : Float} (hwidth : IsSound width)
    (hexact : IsExact width) (hx : x.isFinite = true) {k : ℤ} (hk : -1 ≤ k) (hk' : k ≤ 1)
    (hvalue : value x = k * value width) : value (roundTo width x) = k * value width := by
  have hplaces := places_le_eleven hwidth.least
  obtain ⟨hneg, hneg_value⟩ :=
    Binary64.value_neg hwidth.isFinite (hwidth.lt_of_le (abs_of_pos hwidth.pos).le)
  rcases (by omega : k = 0 ∨ k = 1 ∨ k = -1) with rfl | rfl | rfl
  · rw [Int.cast_zero, zero_mul] at hvalue ⊢
    rw [roundTo_of_value_eq_zero hplaces hx hvalue]
    decide +kernel
  · rw [Int.cast_one, one_mul] at hvalue ⊢
    rw [roundTo_eq_of_value_eq hplaces hx hwidth.isFinite hvalue]
    exact hexact.roundTo_self
  · rw [Int.cast_neg, Int.cast_one, neg_one_mul] at hvalue ⊢
    rw [roundTo_eq_of_value_eq hplaces hx hneg (hvalue.trans hneg_value.symm)]
    exact hexact.roundTo_neg

section

variable {least width : Float} (hleast : least.isFinite = true) (hwidth : IsSound width)
  (hnear : |value least| < value width)
include hleast hwidth hnear

/-- A width larger than a number goes into it not once, or once through the
    slack. -/
theorem exists_floor_of_near : (Binary64.floor (least / width + slack)).isFinite = true ∧
    ∃ k : ℤ, value (Binary64.floor (least / width + slack)) = k ∧
      IsNextToZero (value least) k := by
  obtain ⟨hslack, hslack_least, hslack_most⟩ := slack_bounds
  have hpos := hwidth.pos
  have hratio : |value least / value width| ≤ 1 := by
    rw [abs_div, abs_of_pos hpos, div_le_one hpos]
    exact hnear.le
  have hquotient := Binary64.nearest_div hleast hwidth.isFinite hpos.ne'
    (Binary64.abs_lt_of_le hratio (by norm_num))
  rw [abs_le] at hratio
  have hquotient_least := hquotient.le_value Binary64.isDouble_one.neg hratio.1
  have hquotient_most := hquotient.value_le Binary64.isDouble_one hratio.2
  have hsum := Binary64.nearest_add hquotient.isFinite hslack
    (Binary64.abs_lt_of_le (show _ ≤ (2 : ℚ) from abs_le.2 ⟨by linarith, by linarith⟩)
      (by norm_num))
  have hsum_least := hsum.le_value Binary64.isDouble_one.neg (by linarith)
  have hsum_most := hsum.value_le (Binary64.isDouble_half (a := 3) (by norm_num))
    (by push_cast; linarith)
  push_cast at hsum_most
  obtain ⟨hfloor, hfloor_value⟩ := Binary64.value_floor hsum.isFinite
    (abs_lt.2 ⟨by norm_num; linarith, by norm_num; linarith⟩)
  refine ⟨hfloor, ⌊value (least / width + slack)⌋, hfloor_value, ?_⟩
  by_cases hneg : value least < 0
  · have hquotient_neg := hquotient.value_le Binary64.isDouble_zero
      (div_nonpos_of_nonpos_of_nonneg hneg.le hpos.le)
    have hsum_half := hsum.value_le (Binary64.isDouble_half (a := 1) (by norm_num))
      (by push_cast; linarith)
    push_cast at hsum_half
    have hleast_floor : -1 ≤ ⌊value (least / width + slack)⌋ :=
      Int.le_floor.2 (by push_cast; exact hsum_least)
    have hmost_floor : ⌊value (least / width + slack)⌋ < 1 :=
      Int.floor_lt.2 (by push_cast; linarith)
    exact .inr ⟨hneg, by omega, by omega⟩
  · rw [not_lt] at hneg
    have hquotient_nonneg := hquotient.le_value Binary64.isDouble_zero (by positivity)
    have hsum_nonneg := hsum.le_value Binary64.isDouble_zero (by linarith)
    have hmost_floor : ⌊value (least / width + slack)⌋ < 2 :=
      Int.floor_lt.2 (by push_cast; linarith)
    exact .inl ⟨hneg, Int.floor_nonneg.2 hsum_nonneg, by omega⟩

/-- The first bucket starts at zero or one width away from it. -/
theorem exists_startsAround (hexact : IsExact width) : IsRegular (aligned least width) ∧
    ∃ k : ℤ, value (aligned least width).start = k * value width ∧
      IsNextToZero (value least) k := by
  obtain ⟨hfloor, k, hfloor_value, hk⟩ := exists_floor_of_near hleast hwidth hnear
  have hpos := hwidth.pos
  have hmost := hwidth.most
  have hwidth_double := Binary64.isDouble_value hwidth.isFinite
  obtain ⟨hk_least, hk_most⟩ := hk.bounds
  have hsize : |(k : ℚ)| ≤ 1 := by exact_mod_cast abs_le.2 ⟨hk_least, hk_most⟩
  have hproduct_le : |k * value width| ≤ value width := by
    rw [abs_mul, abs_of_pos hpos]
    exact mul_le_of_le_one_left hpos.le hsize
  have hproduct := Binary64.nearest_mul hfloor hwidth.isFinite (by
    rw [hfloor_value]
    exact Binary64.abs_lt_of_le (hproduct_le.trans hmost) (by norm_num))
  rw [hfloor_value] at hproduct
  -- No rounding: the product is a width, its negative or zero.
  have hproduct_double : Binary64.IsDouble (k * value width) := by
    rcases (by omega : k = 0 ∨ k = 1 ∨ k = -1) with rfl | rfl | rfl
    · simpa using Binary64.isDouble_zero
    · simpa using hwidth_double
    · simpa using hwidth_double.neg
  have hstart : value (aligned least width).start = k * value width :=
    value_roundTo_of_isExact hwidth hexact hproduct.isFinite hk_least hk_most
      (hproduct.value_eq_of_isDouble hproduct_double)
  rw [← hstart] at hproduct_le
  refine ⟨⟨hwidth.isFinite, hwidth.least, hmost.trans (by norm_num), ?_, ?_⟩, k, hstart, hk⟩
  · exact Binary64.isFinite_of_abs_value_lt (hwidth.lt_of_le hproduct_le)
  · show |value (aligned least width).start| ≤ 2000 + value width
    linarith

end

end PlotGrammar.Binning
