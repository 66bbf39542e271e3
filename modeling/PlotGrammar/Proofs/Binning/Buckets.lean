import PlotGrammar.Proofs.Binning.Grid

/-! # Buckets on the grid

  The ends of the buckets of a width that fits its places are the points of a
  grid (`point`), each as the double nearest to it. The first bucket starts at
  the point next below the least number (`exists_startsAt`), and the bucket of
  a number is between the two points next to it (`exists_inBucket`), both up to
  the slack and the rounding of the quotient.

  The errors are counted in widths. Up to a thousand in size, and for widths
  from a thousandth on, the last bit of a number on the line is below
  `1.14e-10` of a width.
-/

namespace PlotGrammar.Binning

open Binary64 (value Nearest)

/-- A width that is neither very small nor very large and fits its places. -/
structure Moderate (width : Float) : Prop where
  least : 1 / 1000 ≤ value width
  most : value width ≤ 1000
  fits : FitsPlaces width

theorem Moderate.pos {width : Float} (h : Moderate width) : 0 < value width :=
  lt_of_lt_of_le (by norm_num) h.least

theorem Moderate.isFinite {width : Float} (h : Moderate width) : width.isFinite = true :=
  isFinite_of_le h.pos.le h.most

/-! ### Points -/

/-- The units of the last place in a width. -/
def unitCount (width : Float) : ℤ := round (value width * 10 ^ places width)

/-- A point of the grid, so many widths from zero. -/
def point (width : Float) (k : ℤ) : ℚ := (k * unitCount width : ℤ) / 10 ^ places width

theorem point_add (width : Float) (j k : ℤ) : point width (j + k) = point width j + point width k := by
  rw [point, point, point, add_mul, Int.cast_add, add_div]

section

variable {width : Float} (hw : Moderate width)
include hw

/-- A point is so many widths from zero, up to the rounding of the width. -/
theorem abs_point_sub_le (k : ℤ) :
    |point width k - k * value width| ≤ |k * value width| / 2 ^ 52 := by
  have hpos : (0 : ℚ) < 10 ^ places width := by positivity
  have hfits := hw.fits
  rw [FitsPlaces, abs_sub_comm] at hfits
  have hsplit : point width k - k * value width =
      k * (unitCount width - value width * 10 ^ places width) / 10 ^ places width := by
    rw [point]
    push_cast
    field_simp
  rw [hsplit, abs_div, abs_mul, abs_of_pos hpos, div_le_iff₀ hpos, abs_mul, abs_of_pos hw.pos]
  calc |(k : ℚ)| * |unitCount width - value width * 10 ^ places width|
      ≤ |(k : ℚ)| * (value width * 10 ^ places width / 2 ^ 52) :=
        mul_le_mul_of_nonneg_left hfits (abs_nonneg _)
    _ = |(k : ℚ)| * value width / 2 ^ 52 * 10 ^ places width := by ring

/-- Points of everyday size are off by little. -/
theorem abs_point_sub_le_of_le {k : ℤ} (hk : |k * value width| ≤ 7500) :
    |point width k - k * value width| ≤ 1 / 10 ^ 6 := by
  have hpoint := abs_point_sub_le hw k
  linarith

/-- A number that is close to so many widths is near to the point. -/
theorem isNear_of_abs_sub_le {x : Float} {k : ℤ} (hx : x.isFinite = true)
    (hk : |k * value width| ≤ 7500) (hclose : |value x - k * value width| ≤ 1 / 10 ^ 5) :
    IsNear width x (k * unitCount width) := by
  have hplaces := places_le hw.least
  have hten : (10 : ℚ) ^ places width ≤ 10 ^ 4 := pow_le_pow_right₀ (by norm_num) hplaces
  have hpos : (0 : ℚ) < 10 ^ places width := by positivity
  have hpoint := abs_point_sub_le_of_le hw hk
  refine ⟨hx, ?_, ?_⟩
  · rw [abs_le] at hk hclose
    exact abs_lt.2 ⟨by norm_num at *; linarith, by norm_num at *; linarith⟩
  · have hscale : value x * 10 ^ places width - (k * unitCount width : ℤ) =
        (value x - point width k) * 10 ^ places width := by
      rw [point]
      field_simp
    have hsum : |value x - point width k| ≤ 1 / 10 ^ 5 + 1 / 10 ^ 6 :=
      calc |value x - point width k|
          ≤ |value x - k * value width| + |k * value width - point width k| := abs_sub_le _ _ _
        _ ≤ 1 / 10 ^ 5 + 1 / 10 ^ 6 := by
          rw [abs_sub_comm (k * value width)]
          exact add_le_add hclose hpoint
    rw [hscale, abs_mul, abs_of_pos hpos]
    calc |value x - point width k| * 10 ^ places width
        ≤ (1 / 10 ^ 5 + 1 / 10 ^ 6) * 10 ^ 4 :=
          mul_le_mul hsum hten hpos.le (by norm_num)
      _ ≤ 1 / 4 := by norm_num

end

/-! ### Errors in widths -/

section

variable {z d w : ℚ} (herror : ∀ k : ℤ, -1021 ≤ k → |z| < 2 ^ k → d ≤ 2 ^ (k - 54))
  (hleast : 1 / 1000 ≤ w) (hmost : w ≤ 1000)
include herror hleast hmost

/-- Narrow widths have finer numbers around them than wide ones. -/
theorem le_of_near_line (hz : |z| ≤ 1000 + w + 1 / 1000) : d ≤ 5.69e-11 * w := by
  by_cases hnarrow : w ≤ 16
  · have hd := herror 10 (by norm_num) (by norm_num; linarith)
    norm_num at hd
    linarith
  · have hd := herror 11 (by norm_num) (by norm_num; linarith)
    norm_num at hd
    linarith

theorem le_of_near_span (hz : |z| ≤ 2000 + w + 1 / 1000) : d ≤ 1.14e-10 * w := by
  by_cases hnarrow : w ≤ 16
  · have hd := herror 11 (by norm_num) (by norm_num; linarith)
    norm_num at hd
    linarith
  · have hd := herror 12 (by norm_num) (by norm_num; linarith)
    norm_num at hd
    linarith

end

/-! ### Positions -/

/-- The whole number of widths in a number, up to the slack. -/
theorem exists_floor {x width : Float} (hw : Moderate width) (hx : x.isFinite = true)
    (hsmall : |value x| ≤ 2097000 * value width) :
    (Binary64.floor (x / width + slack)).isFinite = true ∧
    ∃ k : ℤ, value (Binary64.floor (x / width + slack)) = k ∧
      k * value width ≤ value x + 1.233e-9 * value width ∧
      value x + 7.67e-10 * value width ≤ (k + 1) * value width := by
  obtain ⟨hslack, hslack_least, hslack_most⟩ := slack_bounds
  have hpos := hw.pos
  have hbound : |value x / value width| ≤ 2097000 := by
    rw [abs_div, abs_of_pos hpos, div_le_iff₀ hpos]
    exact hsmall
  have hquotient := Binary64.nearest_div hx hw.isFinite hpos.ne'
    (Binary64.abs_lt_of_le hbound (by norm_num))
  have herror := hquotient.error (k := 21) (by norm_num) (hbound.trans_lt (by norm_num))
  rw [abs_le] at hbound herror
  have hsum : |value (x / width) + value slack| ≤ 2097100 := by
    norm_num at herror
    exact abs_le.2 ⟨by linarith, by linarith⟩
  have hindex := Binary64.nearest_add hquotient.isFinite hslack
    (Binary64.abs_lt_of_le hsum (by norm_num))
  have herror' := hindex.error (k := 21) (by norm_num) (hsum.trans_lt (by norm_num))
  rw [abs_le] at hsum herror'
  norm_num at herror herror'
  obtain ⟨hfinite, hvalue⟩ := Binary64.value_floor hindex.isFinite
    (abs_lt.2 ⟨by norm_num; linarith, by norm_num; linarith⟩)
  refine ⟨hfinite, ⌊value (x / width + slack)⌋, hvalue, ?_, ?_⟩
  · have hfloor := Int.floor_le (value (x / width + slack))
    have hle : (⌊value (x / width + slack)⌋ : ℚ) ≤ value x / value width + 1.233e-9 := by
      linarith
    calc (⌊value (x / width + slack)⌋ : ℚ) * value width
        ≤ (value x / value width + 1.233e-9) * value width :=
          mul_le_mul_of_nonneg_right hle hpos.le
      _ = value x + 1.233e-9 * value width := by rw [add_mul, div_mul_cancel₀ _ hpos.ne']
  · have hfloor := Int.lt_floor_add_one (value (x / width + slack))
    have hle : value x / value width + 7.67e-10 ≤ ⌊value (x / width + slack)⌋ + 1 := by
      linarith
    calc value x + 7.67e-10 * value width
        = (value x / value width + 7.67e-10) * value width := by
          rw [add_mul, div_mul_cancel₀ _ hpos.ne']
      _ ≤ (⌊value (x / width + slack)⌋ + 1) * value width :=
          mul_le_mul_of_nonneg_right hle hpos.le

/-! ### The first bucket -/

/-- The first bucket starts at the point next below the least number. -/
structure StartsAt (b : Binning) (least : ℚ) (k : ℤ) : Prop where
  moderate : Moderate b.width
  nearest : Nearest (point b.width k) b.start
  le : k * value b.width ≤ least + 1.233e-9 * value b.width
  lt : least + 7.67e-10 * value b.width ≤ (k + 1) * value b.width

theorem exists_startsAt {least width : Float} (hw : Moderate width) (hleast : least.isFinite = true)
    (hsmall : |value least| ≤ 1000) : ∃ k, StartsAt (aligned least width) (value least) k := by
  have hw_least := hw.least
  have hw_most := hw.most
  obtain ⟨hfinite, k, hvalue, hle, hlt⟩ := exists_floor hw hleast (by linarith)
  refine ⟨k, hw, ?_, hle, hlt⟩
  rw [abs_le] at hsmall
  have hk : |k * value width| ≤ 2001 := by
    apply abs_le.2
    constructor <;> linarith
  have hproduct := Binary64.nearest_mul hfinite hw.isFinite (by
    rw [hvalue]
    exact Binary64.abs_lt_of_le hk (by norm_num))
  rw [hvalue] at hproduct
  have herror := (hproduct.error (k := 11) (by norm_num) (hk.trans_lt (by norm_num))).trans
    (show (2 : ℚ) ^ ((11 : ℤ) - 54) ≤ 1 / 10 ^ 5 by norm_num)
  exact nearest_roundTo (places_le hw.least)
    (isNear_of_abs_sub_le hw hproduct.isFinite (hk.trans (by norm_num)) herror)

section

variable {b : Binning} {least : ℚ} {k : ℤ} (h : StartsAt b least k) (hleast : |least| ≤ 1000)
include h hleast

theorem StartsAt.abs_mul_le : |k * value b.width| ≤ 1000 + value b.width := by
  have hpos := h.moderate.pos
  have hle := h.le
  have hlt := h.lt
  have hmost := h.moderate.most
  rw [abs_le] at hleast ⊢
  constructor <;> linarith

theorem StartsAt.abs_point_le : |point b.width k| ≤ 1000 + value b.width + 1 / 10 ^ 4 := by
  have hk := h.abs_mul_le hleast
  have hmost := h.moderate.most
  have hpoint := abs_point_sub_le_of_le h.moderate (hk.trans (by linarith))
  rw [abs_le] at hk hpoint ⊢
  constructor <;> linarith

/-- The start is off the point by little. -/
theorem StartsAt.abs_start_sub_le : |value b.start - point b.width k| ≤ 5.69e-11 * value b.width := by
  have hpoint := h.abs_point_le hleast
  exact le_of_near_line (fun _ => h.nearest.error) h.moderate.least h.moderate.most (by linarith)

/-- The start is above the least number by little more than the slack. -/
theorem StartsAt.start_le : value b.start ≤ least + 2e-9 * value b.width := by
  have hk := h.abs_mul_le hleast
  have hstart := h.abs_start_sub_le hleast
  have hw_least := h.moderate.least
  have hw_most := h.moderate.most
  have hpoint := (abs_point_sub_le h.moderate k).trans
    (show _ ≤ 4.45e-10 * value b.width by linarith)
  have hle := h.le
  rw [abs_le] at hstart hpoint
  linarith

end

/-! ### Numbers near to points -/

section

variable {b : Binning} {least : ℚ} {k i : ℤ} (h : StartsAt b least k) (hleast : |least| ≤ 1000)
include h hleast

/-- So many widths from the start are near to a point. -/
theorem isNear_lower {x : Float} (hfinite : (b.bucket x).isFinite = true)
    (hvalue : value (b.bucket x) = i)
    (hi : |i * value b.width| ≤ 2000 + 2 * value b.width + 2 / 10 ^ 3) :
    IsNear b.width (b.start + b.bucket x * b.width) ((k + i) * unitCount b.width) := by
  have hw_most := h.moderate.most
  have hk := h.abs_mul_le hleast
  have hi' : |(i : ℚ) * value b.width| ≤ 4001 := hi.trans (by linarith)
  have hproduct := Binary64.nearest_mul hfinite h.moderate.isFinite (by
    rw [hvalue]
    exact Binary64.abs_lt_of_le hi' (by norm_num))
  rw [hvalue] at hproduct
  have hproduct_error := hproduct.error (k := 12) (by norm_num) (hi'.trans_lt (by norm_num))
  have hstart := h.abs_start_sub_le hleast
  have hpoint := abs_point_sub_le_of_le h.moderate (hk.trans (by linarith))
  rw [abs_le] at hk hi' hproduct_error hstart hpoint
  norm_num at hproduct_error
  have hsum : |value b.start + value (b.bucket x * b.width)| ≤ 7000 :=
    abs_le.2 ⟨by linarith, by linarith⟩
  have hnearest := Binary64.nearest_add h.nearest.isFinite hproduct.isFinite
    (Binary64.abs_lt_of_le hsum (by norm_num))
  have herror := hnearest.error (k := 13) (by norm_num) (hsum.trans_lt (by norm_num))
  rw [abs_le] at herror
  norm_num at herror
  apply isNear_of_abs_sub_le h.moderate hnearest.isFinite
  · push_cast
    rw [add_mul]
    exact abs_le.2 ⟨by linarith, by linarith⟩
  · push_cast
    rw [add_mul]
    exact abs_le.2 ⟨by linarith, by linarith⟩

end

section

variable {b : Binning} {k : ℤ} (hw : Moderate b.width) (hk : |k * value b.width| ≤ 6001)
include hw hk

/-- One width up from a point is near to the next one. -/
theorem isNear_upper {lower : Float} (hlower : Nearest (point b.width k) lower) :
    IsNear b.width (lower + b.width) ((k + 1) * unitCount b.width) := by
  have hw_pos := hw.pos
  have hw_most := hw.most
  have hpoint := abs_point_sub_le_of_le hw (hk.trans (by norm_num))
  rw [abs_le] at hk hpoint
  have hlower_error := hlower.error (k := 13) (by norm_num)
    (abs_lt.2 ⟨by norm_num; linarith, by norm_num; linarith⟩)
  rw [abs_le] at hlower_error
  norm_num at hlower_error hpoint
  have hsum : |value lower + value b.width| ≤ 7100 := abs_le.2 ⟨by linarith, by linarith⟩
  have hnearest := Binary64.nearest_add hlower.isFinite hw.isFinite
    (Binary64.abs_lt_of_le hsum (by norm_num))
  have herror := hnearest.error (k := 13) (by norm_num) (hsum.trans_lt (by norm_num))
  rw [abs_le] at herror
  norm_num at herror
  apply isNear_of_abs_sub_le hw hnearest.isFinite
  · push_cast
    rw [add_mul]
    exact abs_le.2 ⟨by linarith, by linarith⟩
  · push_cast
    rw [add_mul]
    exact abs_le.2 ⟨by norm_num; linarith, by norm_num; linarith⟩

end

/-! ### The bucket of a number -/

/-- The bucket of a number is between two points, one width apart. -/
structure InBucket (b : Binning) (x : Float) (k : ℤ) : Prop where
  near_lower : IsNear b.width (b.start + b.bucket x * b.width) (k * unitCount b.width)
  near_upper : IsNear b.width ((b.ends x).1 + b.width) ((k + 1) * unitCount b.width)
  le : point b.width k ≤ value x + 1.886e-9 * value b.width
  lt : value x < point b.width (k + 1)

section

variable {b : Binning} {least : ℚ} {k : ℤ} (h : StartsAt b least k) (hleast : |least| ≤ 1000)
  {x : Float} (hx : x.isFinite = true) (hsmall : |value x| ≤ 1000) (hle : least ≤ value x)
include h hleast hx hsmall hle

/-- The distance from the start is rounded by little. -/
theorem distance_bounds : (x - b.start).isFinite = true ∧
    |value x - value b.start| ≤ 2000 + value b.width + 1 / 10 ^ 3 ∧
    |value (x - b.start) - (value x - value b.start)| ≤ 1.14e-10 * value b.width := by
  have hstart := h.abs_start_sub_le hleast
  have hk := h.abs_mul_le hleast
  have hpoint := abs_point_sub_le_of_le h.moderate (hk.trans (by linarith [h.moderate.most]))
  have hstart_le := h.le
  have hstart_lt := h.lt
  have hpos := h.moderate.pos
  have hmost := h.moderate.most
  have hbound : |value x - value b.start| ≤ 2000 + value b.width + 1 / 10 ^ 3 := by
    rw [abs_le] at hleast hsmall hstart hpoint hk ⊢
    constructor <;> linarith
  have hnearest := Binary64.nearest_sub hx h.nearest.isFinite
    (Binary64.abs_lt_of_le (hbound.trans (show _ ≤ 3001 by linarith)) (by norm_num))
  exact ⟨hnearest.isFinite, hbound,
    le_of_near_span (fun _ => hnearest.error) h.moderate.least h.moderate.most (by linarith)⟩

/-- The position of a number is the point next below it, counted from the start. -/
theorem exists_position : (b.bucket x).isFinite = true ∧ ∃ i : ℤ, value (b.bucket x) = i ∧
    |i * value b.width| ≤ 2000 + 2 * value b.width + 2 / 10 ^ 3 ∧
    point b.width (k + i) ≤ value x + 1.886e-9 * value b.width ∧
    value x < point b.width (k + i + 1) := by
  obtain ⟨hfinite, hbound, hdistance⟩ := distance_bounds h hleast hx hsmall hle
  have hw_pos := h.moderate.pos
  have hw_least := h.moderate.least
  have hw_most := h.moderate.most
  have hspan : |value (x - b.start)| ≤ 2000 + value b.width + 1.1 / 10 ^ 3 := by
    rw [abs_le] at hbound hdistance ⊢
    constructor <;> linarith
  obtain ⟨hfloor, i, hvalue, hi_le, hi_lt⟩ := exists_floor h.moderate hfinite (by linarith)
  have hi : |i * value b.width| ≤ 2000 + 2 * value b.width + 2 / 10 ^ 3 := by
    rw [abs_le] at hspan ⊢
    constructor <;> linarith
  have hi' : |((i + 1 : ℤ) : ℚ) * value b.width| ≤ 2000 + 3 * value b.width + 2 / 10 ^ 3 := by
    rw [abs_le] at hspan ⊢
    push_cast
    constructor <;> linarith
  -- Thousands of widths add up their rounding.
  have hpoint := (abs_point_sub_le h.moderate i).trans
    (show _ ≤ 4.45e-10 * value b.width by linarith)
  have hpoint' := (abs_point_sub_le h.moderate (i + 1)).trans
    (show _ ≤ 4.45e-10 * value b.width by linarith)
  have hstart := h.abs_start_sub_le hleast
  rw [abs_le] at hdistance hpoint hpoint' hstart
  refine ⟨hfloor, i, hvalue, hi, ?_, ?_⟩
  · rw [point_add]
    linarith
  · rw [add_assoc, point_add]
    push_cast at hpoint'
    linarith

/-- The bucket of a number holds it, up to the slack and the rounding. -/
theorem exists_inBucket : ∃ i : ℤ, value (b.bucket x) = i ∧ InBucket b x (k + i) := by
  obtain ⟨hfinite, i, hvalue, hi, hle', hlt'⟩ := exists_position h hleast hx hsmall hle
  have hmost := h.moderate.most
  have hk := h.abs_mul_le hleast
  have hnear := isNear_lower h hleast hfinite hvalue hi
  have hlower : Nearest (point b.width (k + i)) (b.ends x).1 :=
    nearest_roundTo (places_le h.moderate.least) hnear
  have hki : |((k + i : ℤ) : ℚ) * value b.width| ≤ 6001 := by
    rw [abs_le] at hk hi ⊢
    push_cast
    rw [add_mul]
    constructor <;> linarith
  exact ⟨i, hvalue, hnear, isNear_upper h.moderate hki hlower, hle', hlt'⟩

end

end PlotGrammar.Binning
