import PlotGrammar.Binning
import PlotGrammar.Proofs.Decimal.Orders

/-! # Rounding to the places of a width

  A width that is a whole number of its last decimal place (`FitsPlaces`) puts
  the ends of all buckets on a grid. Rounding a number that is close to a point
  of the grid gives the double nearest to the point (`nearest_roundTo`), and
  the same double for all of them (`roundTo_congr`).
-/

namespace PlotGrammar.Binning

open Binary64 (value Nearest)

theorem slack_bounds : slack.isFinite = true ∧ 1e-9 ≤ value slack ∧ value slack ≤ 1.0001e-9 := by
  decide +kernel

/-- A width of everyday size is finite. -/
theorem isFinite_of_le {width : Float} (hnonneg : 0 ≤ value width) (hmost : value width ≤ 1000) :
    width.isFinite = true := by
  apply Binary64.isFinite_of_abs_value_lt
  rw [abs_of_nonneg hnonneg]
  calc value width ≤ 1000 := hmost
    _ < 2 ^ (10 : ℤ) := by norm_num
    _ ≤ 2 ^ (1024 : ℤ) := zpow_le_zpow_right₀ (by norm_num) (by norm_num)

/-! ### Places -/

/-- The width is a whole number of the last place that it is given, up to the
    rounding of a double. -/
def FitsPlaces (width : Float) : Prop :=
  |value width * 10 ^ places width - round (value width * 10 ^ places width)| ≤
    value width * 10 ^ places width / 2 ^ 52

instance (width : Float) : Decidable (FitsPlaces width) := inferInstanceAs (Decidable (_ ≤ _))

/-- From a thousandth on a width has up to four places. -/
theorem places_le {width : Float} (h : 1 / 1000 ≤ value width) : places width ≤ 4 := by
  have horder := Decimal.le_order (x := width) (e := -3) (by linarith) (by norm_num at h ⊢; exact h)
  have hfloor := Decimal.floorLog_eq_or width
  unfold places
  split
  · omega
  · omega

/-- Small powers of ten are doubles. -/
theorem value_powerOfTen {n : ℕ} (h : n ≤ 15) : value (Decimal.powerOfTen n) = 10 ^ n := by
  have hnearest := Decimal.nearest_powerOfTen (e := n) (by omega)
  rw [zpow_natCast] at hnearest
  apply hnearest.value_eq (a := 10 ^ n) (j := 0)
  · rw [abs_of_nonneg (by positivity)]
    calc (10 : ℤ) ^ n ≤ 10 ^ 15 := pow_le_pow_right₀ (by norm_num) h
      _ < 2 ^ 53 := by norm_num
  · norm_num
  · simp

/-- Multiplied out, small powers of ten are the doubles nearest to them too. -/
theorem power_ten : ∀ n ≤ 15, Binary64.power 10.0 n = Decimal.powerOfTen n := by
  decide +kernel

/-- The power of ten of a width that does not need too many places. -/
theorem value_scale (width : Float) (h : places width ≤ 15) :
    (scale width).isFinite = true ∧ value (scale width) = 10 ^ places width := by
  rw [scale, power_ten _ h]
  exact ⟨(Decimal.nearest_powerOfTen (e := places width) (by omega)).isFinite, value_powerOfTen h⟩

/-- Rounding to places gives the quotient that it ends with, up to the sign of
    zero. -/
theorem value_roundTo {width x : Float}
    (h : (Binary64.round (x * scale width) / scale width).isFinite = true) :
    (roundTo width x).isFinite = true ∧
      value (roundTo width x) = value (Binary64.round (x * scale width) / scale width) := by
  unfold roundTo
  dsimp only
  split
  · next heq => exact ⟨rfl, ((Binary64.beq_iff_value h rfl).1 heq).symm⟩
  · exact ⟨h, rfl⟩

/-- Both zeros become the positive one. -/
theorem roundTo_of_quotient_eq_zero {width x : Float}
    (h : (Binary64.round (x * scale width) / scale width).isFinite = true)
    (hzero : value (Binary64.round (x * scale width) / scale width) = 0) :
    roundTo width x = 0.0 := by
  have heq := (Binary64.beq_iff_value h rfl).2 (hzero.trans Binary64.value_zero.symm)
  simp only [roundTo, heq, if_true]

/-! ### The grid -/

/-- A number of moderate size that is close to a point of the grid. -/
structure IsNear (width x : Float) (k : ℤ) : Prop where
  isFinite : x.isFinite = true
  small : |value x| < 2 ^ 13
  close : |value x * 10 ^ places width - k| ≤ 1 / 4

section

variable {width x y : Float} {k : ℤ} (hplaces : places width ≤ 4)
include hplaces

theorem abs_mul_places_lt (h : IsNear width x k) :
    |value x * 10 ^ places width| < 2 ^ (27 : ℤ) := by
  have hpos : (0 : ℚ) < 10 ^ places width := by positivity
  have hten : (10 : ℚ) ^ places width ≤ 10 ^ 4 := pow_le_pow_right₀ (by norm_num) hplaces
  rw [abs_mul, abs_of_pos hpos]
  calc |value x| * 10 ^ places width ≤ 2 ^ 13 * 10 ^ 4 :=
        mul_le_mul h.small.le hten hpos.le (by norm_num)
    _ < 2 ^ (27 : ℤ) := by norm_num

/-- A number that is close to a point of the grid is rounded to it. -/
theorem value_round_mul (h : IsNear width x k) :
    (Binary64.round (x * scale width)).isFinite = true ∧
      value (Binary64.round (x * scale width)) = k := by
  obtain ⟨hfinite, hscale⟩ := value_scale width (by omega)
  have hproduct := abs_mul_places_lt hplaces h
  have hnearest := Binary64.nearest_mul h.isFinite hfinite (by
    rw [hscale]
    exact Binary64.abs_lt_of_le hproduct.le (by norm_num))
  rw [hscale] at hnearest
  have herror := (hnearest.error (by norm_num) hproduct).trans
    (show (2 : ℚ) ^ ((27 : ℤ) - 54) ≤ 1 / 100 by norm_num)
  have hclose := h.close
  rw [abs_le] at herror hclose
  rw [abs_lt] at hproduct
  norm_num at hproduct
  apply Binary64.value_round hnearest.isFinite
  · exact abs_lt.2 ⟨by norm_num; linarith, by norm_num; linarith⟩
  · exact abs_lt.2 ⟨by linarith, by linarith⟩

/-- The quotient that rounding ends with. -/
theorem nearest_quotient (h : IsNear width x k) :
    Nearest (k / 10 ^ places width) (Binary64.round (x * scale width) / scale width) := by
  obtain ⟨hfinite, hvalue⟩ := value_round_mul hplaces h
  obtain ⟨hscale_finite, hscale⟩ := value_scale width (by omega)
  have hproduct := abs_mul_places_lt hplaces h
  have hone : (1 : ℚ) ≤ 10 ^ places width := one_le_pow₀ (by norm_num)
  have hsmall : |(k : ℚ) / 10 ^ places width| ≤ 2 ^ (28 : ℤ) := by
    have hclose := h.close
    rw [abs_div, abs_of_pos (by positivity : (0 : ℚ) < 10 ^ places width)]
    rw [abs_le] at hclose
    rw [abs_lt] at hproduct
    calc |(k : ℚ)| / 10 ^ places width ≤ |(k : ℚ)| := div_le_self (abs_nonneg _) hone
      _ ≤ 2 ^ (28 : ℤ) := by
        norm_num at hproduct
        exact abs_le.2 ⟨by norm_num; linarith, by norm_num; linarith⟩
  have hquotient := Binary64.nearest_div hfinite hscale_finite (by rw [hscale]; positivity)
    (by
      rw [hvalue, hscale]
      exact Binary64.abs_lt_of_le hsmall (by norm_num))
  rwa [hvalue, hscale] at hquotient

/-- Rounding to the places of a width finds the double nearest to the point. -/
theorem nearest_roundTo (h : IsNear width x k) :
    Nearest (k / 10 ^ places width) (roundTo width x) := by
  have hquotient := nearest_quotient hplaces h
  obtain ⟨hfinite, hvalue⟩ := value_roundTo hquotient.isFinite
  refine ⟨hfinite, ?_⟩
  rw [hvalue]
  exact hquotient.isRounding

/-- Numbers close to the same point are rounded to the same double. -/
theorem roundTo_congr (hx : IsNear width x k) (hy : IsNear width y k) :
    roundTo width x = roundTo width y := by
  obtain ⟨hfinite, hvalue⟩ := value_round_mul hplaces hx
  obtain ⟨hfinite', hvalue'⟩ := value_round_mul hplaces hy
  by_cases hzero : k = 0
  · have hpositive : ∀ z, IsNear width z k → roundTo width z = 0.0 := by
      intro z hz
      have hquotient := nearest_quotient hplaces hz
      rw [hzero, Int.cast_zero, zero_div] at hquotient
      apply roundTo_of_quotient_eq_zero hquotient.isFinite
      exact hquotient.value_eq (a := 0) (j := 0) (by norm_num) (by norm_num) (by simp)
    rw [hpositive x hx, hpositive y hy]
  · have hsame := Binary64.eq_of_value_eq (hvalue.trans hvalue'.symm)
      (by rw [hvalue]; exact_mod_cast hzero)
    simp only [roundTo, hsame]

end

end PlotGrammar.Binning
