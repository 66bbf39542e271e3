import PlotGrammar.Proofs.Binning.Grid
import PlotGrammar.Proofs.Binning.Search

/-! # Widths that are chosen

  The width that is chosen for a span is a small power of ten, or a half or a
  fifth of one, so it fits its places (`nice_niceWidth`), and so does every
  width that follows it (`nice_widen`). Widths far below a thousandth are left
  out: there powers of ten lose their digits.

  The first guess is not below a thousandth of the span over the number of
  parts, so making it ten times larger a few times is enough
  (`exists_tenTimes`).
-/

namespace PlotGrammar.Binning

open Binary64 (value Nearest)
open Decimal (powerOfTen)

/-- A width that fits its places, if it is not below a thousandth. -/
structure Nice (width : Float) : Prop where
  isFinite : width.isFinite = true
  nonneg : 0 ≤ value width
  fits : 1 / 1000 ≤ value width → FitsPlaces width

instance (width : Float) : Decidable (Nice width) :=
  decidable_of_iff (width.isFinite = true ∧ 0 ≤ value width ∧
      (1 / 1000 ≤ value width → FitsPlaces width))
    ⟨fun ⟨isFinite, nonneg, fits⟩ => ⟨isFinite, nonneg, fits⟩,
      fun h => ⟨h.isFinite, h.nonneg, h.fits⟩⟩

theorem nice_of_lt {width : Float} {z : ℚ} (h : Nearest z width) (hz : 0 ≤ z)
    (hsmall : z < 1 / 2000) : Nice width := by
  obtain ⟨hnonneg, hdouble⟩ := h.bounds hz
  exact ⟨h.isFinite, hnonneg, fun hleast => absurd hleast (by linarith)⟩

/-- Numbers up to one are far from the largest double. -/
theorem abs_lt_of_le_one {z : ℚ} (hz : 0 ≤ z) (hone : z ≤ 1) : |z| < 2 ^ (1000 : ℤ) := by
  rw [← abs_of_nonneg hz] at hone
  exact Binary64.abs_lt_of_le hone (by norm_num)

/-! ### Times ten -/

/-- Powers of ten that are not too small keep their digits for a while. -/
theorem nice_tenTimes : ∀ i : ℕ, i < 15 → ∀ times < 5,
    Nice (tenTimes times (powerOfTen (i - 9))) ∧
      Nice (tenTimes times (powerOfTen (i - 9)) / 2.0) ∧
      Nice (tenTimes times (powerOfTen (i - 9)) / 5.0) := by
  decide +kernel

theorem tenTimes_large : ∀ i : ℕ, i < 15 →
    4000 * 10 ^ i ≤ value (tenTimes 4 (powerOfTen (i - 9))) * 10 ^ 9 := by
  decide +kernel

theorem nice_multiples : ∀ i : ℕ, i < 9 →
    Nice (2.0 * powerOfTen (i - 4)) ∧ Nice (5.0 * powerOfTen (i - 4)) ∧
      Nice (10.0 * powerOfTen (i - 4)) := by
  decide +kernel

/-! ### The search -/

section

variable {span most : Float} (hspan : span.isFinite = true) (hspan_pos : 0 < value span)
  (hmost : most.isFinite = true) (hmost_least : 1 ≤ value most) (hmost_le : value most ≤ 2 ^ 65)
  {e : ℤ} (hguess : value span < 1000 * value most * 10 ^ e)
include hspan hspan_pos hmost hmost_least hmost_le hguess

/-- A guess that is too narrow to matter stays too narrow. -/
theorem tenfold_narrow (he : e ≤ -9) {steps : ℕ} {width : Float}
    (hsearch : tenfold span most steps (powerOfTen e) = .ok width) :
    width.isFinite = true ∧ 0 ≤ value width ∧ value width < 1 / 10000 := by
  have hten : (10 : ℚ) ^ e ≤ 1 / 10 ^ 9 := by
    have hle := Decimal.ten_zpow_le he
    norm_num at hle ⊢
    exact hle
  apply tenfold_induction (P := fun width =>
    width.isFinite = true ∧ 0 ≤ value width ∧ value width < 1 / 10000) _ _ hsearch
  · rintro width ⟨hfinite, hnonneg, -⟩ hmore
    have htimes : value 10.0 = 10 := by decide +kernel
    -- Too many parts are left only while the width is far below the span.
    have hnarrow : value width ≤ 4000 * 10 ^ e := by
      by_contra hwide
      have hpos : 0 < value width := (by positivity : (0 : ℚ) ≤ 4000 * 10 ^ e).trans_lt (not_le.1 hwide)
      apply not_lt_parts hspan hspan_pos.le hmost hmost_least hmost_le hfinite hpos _ hmore
      have hmul := mul_le_mul_of_nonneg_left (not_le.1 hwide).le (zero_le_one.trans hmost_least)
      linarith
    have hproduct := Binary64.nearest_mul (y := 10.0) hfinite (by decide) (by
      rw [htimes]
      exact abs_lt_of_le_one (by linarith) (by linarith))
    rw [htimes] at hproduct
    obtain ⟨hleast, hbound⟩ := hproduct.bounds (by linarith)
    exact ⟨hproduct.isFinite, hleast, by linarith⟩
  · have hnearest := Decimal.nearest_powerOfTen (e := e) (by omega)
    obtain ⟨hleast, hbound⟩ := hnearest.bounds (Decimal.ten_zpow_pos e).le
    exact ⟨hnearest.isFinite, hleast, by linarith⟩

/-- Few times ten are enough for any other guess. -/
theorem exists_tenTimes (he : -9 ≤ e) (he' : e ≤ 5) :
    ∃ times < 5, tenfold span most maxTenfolds (powerOfTen e) = .ok (tenTimes times (powerOfTen e)) := by
  obtain ⟨i, hi, rfl⟩ : ∃ i : ℕ, i < 15 ∧ e = i - 9 := ⟨(e + 9).toNat, by omega, by omega⟩
  have hlarge := tenTimes_large i hi
  have hnice := (nice_tenTimes i hi 4 (by norm_num)).1
  have hpower : (10 : ℚ) ^ ((i : ℤ) - 9) * 10 ^ 9 = 10 ^ i := by
    rw [zpow_sub₀ (by norm_num), zpow_natCast]
    exact div_mul_cancel₀ _ (by norm_num)
  rw [← hpower, ← mul_assoc] at hlarge
  have hwide := le_of_mul_le_mul_right hlarge (by norm_num)
  have hpos := (mul_pos (by norm_num) (Decimal.ten_zpow_pos _)).trans_le hwide
  have hmul := mul_le_mul_of_nonneg_left hwide (zero_le_one.trans hmost_least)
  have hfew : ¬ most < parts span (tenTimes 4 (powerOfTen (i - 9))) :=
    not_lt_parts hspan hspan_pos.le hmost hmost_least hmost_le hnice.isFinite hpos (by linarith)
  obtain ⟨times, htimes, hsearch⟩ := exists_tenfold (by decide : 4 < maxTenfolds) hfew
  exact ⟨times, by omega, hsearch⟩

end

/-! ### The width that is chosen -/

/-- The half and the fifth of a narrow width are narrow. -/
theorem nice_of_narrow {width : Float} (hfinite : width.isFinite = true) (hnonneg : 0 ≤ value width)
    (hnarrow : value width < 1 / 10000) :
    Nice width ∧ Nice (width / 2.0) ∧ Nice (width / 5.0) := by
  have htwo : value 2.0 = 2 := by decide +kernel
  have hfive : value 5.0 = 5 := by decide +kernel
  have hhalf := Binary64.nearest_div (y := 2.0) hfinite (by decide) (by rw [htwo]; norm_num) (by
    rw [htwo]
    exact abs_lt_of_le_one (by linarith) (by linarith))
  have hfifth := Binary64.nearest_div (y := 5.0) hfinite (by decide) (by rw [hfive]; norm_num) (by
    rw [hfive]
    exact abs_lt_of_le_one (by linarith) (by linarith))
  rw [htwo] at hhalf
  rw [hfive] at hfifth
  exact ⟨⟨hfinite, hnonneg, fun hleast => absurd hleast (by linarith)⟩,
    nice_of_lt hhalf (by linarith) (by linarith), nice_of_lt hfifth (by linarith) (by linarith)⟩

section

variable {span most width : Float} (hspan : span.isFinite = true) (hspan_pos : 0 < value span)
  (hmost : most.isFinite = true) (hmost_least : 1 ≤ value most) (hmost_le : value most ≤ 2 ^ 65)
include hspan hspan_pos hmost hmost_least hmost_le

/-- The search for a span that is not too large ends with a nice width, whose
    half and fifth are nice. -/
theorem nice_of_tenfold (hspan_lt : value span < 10 ^ 4)
    (hsearch : tenfold span most maxTenfolds (guess span most) = .ok width) :
    Nice width ∧ Nice (width / 2.0) ∧ Nice (width / 5.0) := by
  have hguess := span_lt_guess hspan_pos hmost_least
  have hguess_le := guess_le hspan_pos hmost_least (e := 4) (by exact_mod_cast hspan_lt)
  unfold guess at hsearch
  generalize Decimal.roundLog span - Decimal.ceilLog most = e at *
  by_cases hnarrow : e ≤ -9
  · obtain ⟨hfinite, hnonneg, hlt⟩ :=
      tenfold_narrow hspan hspan_pos hmost hmost_least hmost_le hguess hnarrow hsearch
    exact nice_of_narrow hfinite hnonneg hlt
  · obtain ⟨times, htimes, heq⟩ := exists_tenTimes hspan hspan_pos hmost hmost_least hmost_le
      hguess (by omega) hguess_le
    obtain ⟨i, hi, rfl⟩ : ∃ i : ℕ, i < 15 ∧ e = i - 9 := ⟨(e + 9).toNat, by omega, by omega⟩
    rw [hsearch, Except.ok.injEq] at heq
    rw [heq]
    exact nice_tenTimes i hi times htimes

end

/-- The width that is chosen for a span that is not too large is nice. -/
theorem nice_niceWidth {span width : Float} {maxBins : ℕ} (hspan_lt : value span < 10 ^ 4)
    (hbins : maxBins < 2 ^ 64) (hwidth : niceWidth span maxBins = .ok width) : Nice width := by
  by_cases hpositive : span.isFinite = true ∧ 0 < value span
  · obtain ⟨hspan, hspan_pos⟩ := hpositive
    obtain ⟨hmost, hmost_least, hmost_le⟩ :=
      value_ofNat_bounds (n := max maxBins 1) (by omega) (by omega)
    rcases niceWidth_cases maxBins hspan hspan_pos rfl with
      ⟨cause, -, hchosen⟩ | ⟨first, hsearch, hchosen⟩
    · rw [hwidth] at hchosen
      cases hchosen
    · obtain ⟨hfirst, hhalf, hfifth⟩ :=
        nice_of_tenfold hspan hspan_pos hmost hmost_least hmost_le hspan_lt hsearch
      simp only [hwidth, Except.ok.injEq] at hchosen
      rcases hchosen with rfl | rfl | rfl
      · exact hfirst
      · exact hhalf
      · exact hfifth
  · rw [niceWidth_of_not_pos hpositive, Except.ok.injEq] at hwidth
    rw [← hwidth]
    decide +kernel

/-- A small multiple of a very narrow width is narrow. -/
theorem nice_mul {c width : Float} (hc : c.isFinite = true) (hc_nonneg : 0 ≤ value c)
    (hc_le : value c ≤ 10) (hwidth : width.isFinite = true) (hnonneg : 0 ≤ value width)
    (hnarrow : value width ≤ 2 / 10 ^ 5) : Nice (c * width) := by
  have hproduct : value c * value width ≤ 10 * (2 / 10 ^ 5) :=
    mul_le_mul hc_le hnarrow hnonneg (by norm_num)
  have hproduct_nonneg := mul_nonneg hc_nonneg hnonneg
  have hnearest := Binary64.nearest_mul hc hwidth
    (abs_lt_of_le_one hproduct_nonneg (by linarith))
  exact nice_of_lt hnearest hproduct_nonneg (by linarith)

/-- Small multiples of powers of ten are nice. -/
theorem nice_mul_powerOfTen {e : ℤ} (he : e ≤ 4) :
    Nice (2.0 * powerOfTen e) ∧ Nice (5.0 * powerOfTen e) ∧ Nice (10.0 * powerOfTen e) := by
  by_cases hleast : -4 ≤ e
  · obtain ⟨i, hi, rfl⟩ : ∃ i : ℕ, i < 9 ∧ e = i - 4 := ⟨(e + 4).toNat, by omega, by omega⟩
    exact nice_multiples i hi
  · have hpower := Decimal.nearest_powerOfTen (e := e) (by omega)
    have hten := Decimal.ten_zpow_le (d := e) (e := -5) (by omega)
    norm_num at hten
    obtain ⟨hnonneg, hdouble⟩ := hpower.bounds (Decimal.ten_zpow_pos e).le
    have hnarrow : value (powerOfTen e) ≤ 2 / 10 ^ 5 := by linarith
    refine ⟨?_, ?_, ?_⟩
    · exact nice_mul rfl (by decide +kernel) (by decide +kernel) hpower.isFinite hnonneg hnarrow
    · exact nice_mul rfl (by decide +kernel) (by decide +kernel) hpower.isFinite hnonneg hnarrow
    · exact nice_mul rfl (by decide +kernel) (by decide +kernel) hpower.isFinite hnonneg hnarrow

/-- The width after a nice width of moderate size is nice. -/
theorem nice_widen {width : Float} (hwidth : Nice width) (hmost : value width ≤ 1000) :
    Nice (widen width) := by
  have hlog := Decimal.floorLog_le (e := 3) (by norm_num) hwidth.nonneg
    (by norm_num; linarith)
  obtain ⟨htwo, hfive, hten⟩ := nice_mul_powerOfTen hlog
  unfold widen
  dsimp only
  split
  · exact htwo
  · split
    · exact hfive
    · exact hten

end PlotGrammar.Binning
