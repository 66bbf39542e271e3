import PlotGrammar.Binning
import PlotGrammar.Proofs.Binary64.Infinity
import PlotGrammar.Proofs.Binary64.Order
import PlotGrammar.Proofs.Decimal.Orders

/-! # The search for a width

  The first guess for a span is made ten times larger until it cuts the span
  into few enough parts. So the widths `tenTimes 0`, `tenTimes 1`, ... of the
  guess are tried, and the first that is large enough is taken
  (`tenfold_eq_ok_iff`), if there is one within the steps
  (`tenfold_eq_error_iff`).

  A guess is not far below the span over the number of parts (`span_lt_guess`),
  so a few steps are enough, or the width becomes infinite. Only a guess of zero
  stays what it is. So the search is given up exactly where it would never end
  (`niceWidth_eq_error_iff`).
-/

namespace PlotGrammar.Binning

open Binary64 (value Nearest)
open Decimal (powerOfTen)

/-! ### Times ten -/

/-- Multiply by ten so often. -/
def tenTimes : ℕ → Float → Float
  | 0, x => x
  | times + 1, x => tenTimes times x * 10.0

theorem tenTimes_mul_ten (times : ℕ) (x : Float) :
    tenTimes times (x * 10.0) = tenTimes (times + 1) x := by
  induction times with
  | zero => rfl
  | succ times ih => rw [tenTimes, ih, tenTimes, tenTimes, tenTimes]

section

variable {x : Float} (hx : x.isFinite = true) (hpos : 0 < value x)
include hx hpos

/-- Below the largest doubles ten times a double is at least eight times as large. -/
theorem mul_ten_bounds (hsmall : value x ≤ 2 ^ (990 : ℤ)) : (x * 10.0).isFinite = true ∧
    8 * value x ≤ value (x * 10.0) ∧ value (x * 10.0) ≤ 20 * value x := by
  have hten : value 10.0 = 10 := by decide +kernel
  have hbound : |value x * value 10.0| < 2 ^ (1000 : ℤ) := by
    rw [hten, abs_of_pos (by linarith)]
    calc value x * 10 < value x * 2 ^ (10 : ℤ) := mul_lt_mul_of_pos_left (by norm_num) hpos
      _ ≤ 2 ^ (990 : ℤ) * 2 ^ (10 : ℤ) := mul_le_mul_of_nonneg_right hsmall (by norm_num)
      _ = 2 ^ (1000 : ℤ) := (zpow_add₀ (by norm_num) _ _).symm
  have hproduct := Binary64.nearest_mul hx (by decide) hbound
  rw [hten] at hproduct
  obtain ⟨-, hmost⟩ := hproduct.bounds (by linarith)
  refine ⟨hproduct.isFinite, ?_, by linarith⟩
  -- Eight times a double is a double, so rounding does not go below it.
  have hleast := hproduct.le_value ((Binary64.isDouble_value hx).two_pow_mul 3) (by linarith)
  linarith

theorem tenTimes_bounds {times : ℕ} (hsmall : 20 ^ times * value x ≤ 2 ^ (990 : ℤ)) :
    (tenTimes times x).isFinite = true ∧ 8 ^ times * value x ≤ value (tenTimes times x) ∧
      value (tenTimes times x) ≤ 20 ^ times * value x := by
  induction times with
  | zero => exact ⟨hx, by simp [tenTimes], by simp [tenTimes]⟩
  | succ times ih =>
    rw [pow_succ', mul_assoc] at hsmall
    rw [pow_succ', pow_succ', mul_assoc, mul_assoc, tenTimes]
    have hleast_pos : 0 < 8 ^ times * value x := by positivity
    have hmost_pos : 0 < 20 ^ times * value x := by positivity
    generalize (8 : ℚ) ^ times * value x = least at *
    generalize (20 : ℚ) ^ times * value x = most at *
    have hmost_le : most ≤ 2 ^ (990 : ℤ) := (by linarith : most ≤ 20 * most).trans hsmall
    obtain ⟨hfinite, hleast, hmost⟩ := ih hmost_le
    obtain ⟨hfinite, hleast', hmost'⟩ :=
      mul_ten_bounds hfinite (by linarith) (hmost.trans hmost_le)
    exact ⟨hfinite, by linarith, by linarith⟩

end

/-! ### Parts -/

section

variable {span most : Float} (hspan : span.isFinite = true) (hspan_nonneg : 0 ≤ value span)
  (hmost : most.isFinite = true) (hmost_least : 1 ≤ value most) (hmost_le : value most ≤ 2 ^ 65)
include hspan hspan_nonneg hmost hmost_least hmost_le

/-- A width that is larger than needed does not cut a span into too many parts. -/
theorem not_lt_parts {width : Float} (hwidth : width.isFinite = true) (hpos : 0 < value width)
    (hlarge : 4 * value span ≤ value most * value width) : ¬ most < parts span width := by
  have hquotient : value span / value width ≤ value most / 4 := by
    rw [div_le_div_iff₀ hpos (by norm_num)]
    linarith
  have hnonneg := div_nonneg hspan_nonneg hpos.le
  have hbound : |value span / value width| ≤ 2 ^ 65 := by
    rw [abs_of_nonneg hnonneg]
    linarith
  have hnearest := Binary64.nearest_div hspan hwidth hpos.ne'
    (Binary64.abs_lt_of_le hbound (by norm_num))
  obtain ⟨-, hdouble⟩ := hnearest.bounds hnonneg
  have hhalf : value (span / width) ≤ value most / 2 := by linarith
  unfold parts
  by_cases hsmall : |value (span / width)| < 2 ^ 53
  · obtain ⟨hfinite, hvalue⟩ := Binary64.value_ceil hnearest.isFinite hsmall
    rw [Binary64.lt_iff_value hmost hfinite, hvalue, not_lt]
    -- Up to two parts one is enough.
    by_cases htwo : value most ≤ 2
    · have hceil : ⌈value (span / width)⌉ ≤ 1 := Int.ceil_le.2 (by push_cast; linarith)
      have hcast : (⌈value (span / width)⌉ : ℚ) ≤ 1 := by exact_mod_cast hceil
      linarith
    · have hceil := Int.ceil_lt_add_one (value (span / width))
      linarith
  · rw [Binary64.ceil, Binary64.roundSize_of_le (not_lt.1 hsmall),
      Binary64.lt_iff_value hmost hnearest.isFinite, not_lt]
    linarith

omit hspan_nonneg hmost_le in
/-- Nor does an infinite one. -/
theorem not_lt_parts_inf : ¬ most < parts span Float.inf := by
  obtain ⟨hfinite, hzero⟩ := Binary64.value_div_inf hspan
  obtain ⟨hparts, hvalue⟩ := Binary64.value_ceil hfinite (by rw [hzero, abs_zero]; positivity)
  rw [hzero, Int.ceil_zero, Int.cast_zero] at hvalue
  unfold parts
  rw [Binary64.lt_iff_value hmost hparts, hvalue, not_lt]
  linarith

omit hspan_nonneg hmost_least hmost_le in
/-- A width of zero cuts a span into infinitely many parts. -/
theorem lt_parts_zero (hspan_pos : 0 < value span) : most < parts span 0.0 := by
  have hceil : Binary64.ceil Float.inf = Float.inf := by decide +kernel
  unfold parts
  rw [Binary64.div_zero hspan hspan_pos, hceil]
  exact Binary64.lt_inf hmost

end

/-- A number of parts, at least one, as a double. -/
theorem value_ofNat_bounds {n : ℕ} (hpos : 0 < n) (h : n < 2 ^ 64) :
    (Float.ofNat n).isFinite = true ∧ 1 ≤ value (Float.ofNat n) ∧ value (Float.ofNat n) ≤ 2 ^ 65 := by
  have hnearest := Binary64.nearest_ofNat h
  have hcast : (n : ℚ) < 2 ^ 64 := by exact_mod_cast h
  obtain ⟨-, hdouble⟩ := hnearest.bounds (Nat.cast_nonneg n)
  refine ⟨hnearest.isFinite, ?_, by linarith⟩
  by_cases hsmall : n ≤ 2 ^ 53
  · rw [Binary64.value_ofNat hsmall]
    exact_mod_cast hpos
  · have herror := hnearest.error (k := 64) (by norm_num)
      (by rw [abs_of_nonneg (Nat.cast_nonneg n)]; exact_mod_cast h)
    have hlarge : (2000 : ℚ) < n := by exact_mod_cast (by omega : 2000 < n)
    rw [abs_le] at herror
    norm_num at herror
    linarith

/-! ### Steps of the search -/

section

variable {span most : Float}

/-- The search ends with the first width that is large enough. -/
theorem tenfold_eq_ok_iff {steps : ℕ} {width width' : Float} :
    tenfold span most steps width = .ok width' ↔
      ∃ times < steps, tenTimes times width = width' ∧ ¬ most < parts span width' ∧
        ∀ earlier < times, most < parts span (tenTimes earlier width) := by
  induction steps generalizing width with
  | zero => simp [tenfold]
  | succ steps ih =>
    rw [tenfold, Nat.exists_lt_succ_left]
    split
    · next hmore =>
      rw [ih]
      simp only [tenTimes_mul_ten, Nat.forall_lt_succ_left, tenTimes, hmore, true_and]
      constructor
      · exact .inr
      · rintro (⟨rfl, hfew, -⟩ | hlater)
        · exact absurd hmore hfew
        · exact hlater
    · next hfew =>
      simp only [Except.ok.injEq, tenTimes, Nat.forall_lt_succ_left, hfew, false_and, and_false,
        exists_false, or_false, Nat.not_lt_zero, false_implies, implies_true, and_true]
      constructor
      · rintro rfl
        exact ⟨rfl, hfew⟩
      · exact And.left

/-- The search is given up where no width is large enough. -/
theorem tenfold_eq_error_iff {steps : ℕ} {width : Float} {cause : Abort} :
    tenfold span most steps width = .error cause ↔
      cause = .endless ∧ ∀ times < steps, most < parts span (tenTimes times width) := by
  induction steps generalizing width with
  | zero => simp [tenfold, eq_comm]
  | succ steps ih =>
    rw [tenfold, Nat.forall_lt_succ_left]
    split
    · next hmore => simp only [ih, tenTimes_mul_ten, tenTimes, hmore, true_and]
    · next hfew => simp only [reduceCtorEq, tenTimes, hfew, false_and, and_false]

/-- A width that is large enough ends the search. -/
theorem exists_tenfold {steps times : ℕ} {width : Float} (hlt : times < steps)
    (hfew : ¬ most < parts span (tenTimes times width)) :
    ∃ times' ≤ times, tenfold span most steps width = .ok (tenTimes times' width) := by
  cases hsearch : tenfold span most steps width with
  | error cause => exact absurd ((tenfold_eq_error_iff.1 hsearch).2 times hlt) hfew
  | ok width' =>
    obtain ⟨times', -, rfl, -, hearlier⟩ := tenfold_eq_ok_iff.1 hsearch
    exact ⟨times', not_lt.1 fun hlater => hfew (hearlier times hlater), rfl⟩

/-- What holds of a width and of ten times a width that has too many parts
    holds of the width that the search ends with. -/
theorem tenfold_induction {P : Float → Prop}
    (hstep : ∀ width, P width → most < parts span width → P (width * 10.0)) {steps : ℕ}
    {width width' : Float} (hwidth : P width) (hsearch : tenfold span most steps width = .ok width') :
    P width' := by
  induction steps generalizing width with
  | zero => cases hsearch
  | succ steps ih =>
    rw [tenfold] at hsearch
    split at hsearch
    · next hmore => exact ih (hstep width hwidth hmore) hsearch
    · cases hsearch
      exact hwidth

theorem lt_iff_pos (hspan : span.isFinite = true) : 0.0 < span ↔ 0 < value span := by
  rw [Binary64.lt_iff_value (by decide) hspan, Binary64.value_zero]

/-- Without a span there is nothing to search for. -/
theorem niceWidth_of_not_pos (hspan : ¬ (span.isFinite = true ∧ 0 < value span)) (maxBins : ℕ) :
    niceWidth span maxBins = .ok 1.0 := by
  unfold niceWidth
  rw [if_pos]
  by_cases hfinite : span.isFinite = true
  · simp [hfinite, lt_iff_pos hfinite, not_lt.1 fun hpos => hspan ⟨hfinite, hpos⟩]
  · simp [hfinite]

/-- After a search that ends, its width, a half or a fifth of it is chosen. -/
theorem niceWidth_cases (maxBins : ℕ) (hspan : span.isFinite = true)
    (hspan_pos : 0 < value span) (hmost : most = Float.ofNat (max maxBins 1)) :
    (∃ cause, tenfold span most maxTenfolds (guess span most) = .error cause ∧
      niceWidth span maxBins = .error cause) ∨
    ∃ width, tenfold span most maxTenfolds (guess span most) = .ok width ∧
      (niceWidth span maxBins = .ok width ∨ niceWidth span maxBins = .ok (width / 2.0) ∨
        niceWidth span maxBins = .ok (width / 5.0)) := by
  unfold niceWidth
  rw [if_neg (by simp [hspan, lt_iff_pos hspan, hspan_pos])]
  dsimp only
  rw [← hmost]
  cases tenfold span most maxTenfolds (guess span most) with
  | error cause => exact .inl ⟨cause, rfl, rfl⟩
  | ok width =>
    refine .inr ⟨width, rfl, ?_⟩
    simp only [bind, Except.bind, pure, Except.pure]
    split
    · exact .inr (.inr rfl)
    · split
      · exact .inr (.inl rfl)
      · exact .inl rfl

end

/-! ### The first guess -/

section

variable {span most : Float} (hspan : 0 < value span) (hmost : 1 ≤ value most)
include hspan hmost

/-- The first guess is not far below the span over the number of parts. -/
theorem span_lt_guess : value span <
    1000 * value most * 10 ^ (Decimal.roundLog span - Decimal.ceilLog most) := by
  have hmost_pos : 0 < value most := lt_of_lt_of_le zero_lt_one hmost
  have hspan_lt := (Decimal.order_units hspan).2
  have hmost_le := (Decimal.order_units hmost_pos).1
  have hspan_log := Decimal.floorLog_eq_or span
  have hspan_log' := Decimal.roundLog_eq_or span
  have hmost_log := Decimal.floorLog_eq_or most
  have hmost_log' := Decimal.ceilLog_eq_or most
  generalize Decimal.order (Binary64.units span) Binary64.one = i at *
  generalize Decimal.order (Binary64.units most) Binary64.one = j at *
  have hexponent : i + 1 ≤ 3 + j + (Decimal.roundLog span - Decimal.ceilLog most) := by omega
  calc value span < 10 ^ (i + 1) := hspan_lt
    _ ≤ 10 ^ (3 + j + (Decimal.roundLog span - Decimal.ceilLog most)) :=
      Decimal.ten_zpow_le hexponent
    _ = 1000 * 10 ^ j * 10 ^ (Decimal.roundLog span - Decimal.ceilLog most) := by
      rw [zpow_add₀ (by norm_num), zpow_add₀ (by norm_num)]
      norm_num
    _ ≤ 1000 * value most * 10 ^ (Decimal.roundLog span - Decimal.ceilLog most) := by
      apply mul_le_mul_of_nonneg_right _ (Decimal.ten_zpow_pos _).le
      linarith

/-- It is not far above the span either. -/
theorem guess_le {e : ℤ} (hspan_lt : value span < 10 ^ e) :
    Decimal.roundLog span - Decimal.ceilLog most ≤ e + 1 := by
  have hspan_le := Decimal.order_le (e := e - 1) hspan (by rwa [sub_add_cancel])
  have hmost_le := Decimal.le_order (x := most) (e := 0) (by linarith) (by simpa using hmost)
  have hspan_log := Decimal.floorLog_eq_or span
  have hspan_log' := Decimal.roundLog_eq_or span
  have hmost_log := Decimal.floorLog_eq_or most
  have hmost_log' := Decimal.ceilLog_eq_or most
  omega

end

/-! ### Searches that never end -/

/-- A power of ten that is not too large is rounded to at least a half of it, or
    to zero. -/
theorem powerOfTen_bounds {e : ℤ} (he : e ≤ 288) : (powerOfTen e).isFinite = true ∧
    value (powerOfTen e) ≤ 2 * 10 ^ e ∧
      (10 ^ e ≤ 2 * value (powerOfTen e) ∨ powerOfTen e = 0.0) := by
  by_cases hupper : e ∈ Decimal.upperPowers
  · have hbounds : ∀ e ∈ Decimal.upperPowers, (powerOfTen e).isFinite = true ∧
        value (powerOfTen e) ≤ 2 * 10 ^ e ∧ 10 ^ e ≤ 2 * value (powerOfTen e) := by
      decide +kernel
    obtain ⟨hfinite, hmost, hleast⟩ := hbounds e hupper
    exact ⟨hfinite, hmost, .inl hleast⟩
  · have hnearest := Decimal.nearest_powerOfTen_of_not_upper (by omega) hupper
    obtain ⟨hnonneg, hmost⟩ := hnearest.bounds (Decimal.ten_zpow_pos e).le
    refine ⟨hnearest.isFinite, hmost, ?_⟩
    by_cases hzero : value (powerOfTen e) = 0
    · exact .inr (Decimal.powerOfTen_eq_zero hnearest.isFinite hzero)
    · left
      by_contra hlow
      have hdouble := (Binary64.isDouble_value hnearest.isFinite).two_pow_mul 1
      have hle := hnearest.le_value hdouble (by linarith)
      have hpos := lt_of_le_of_ne hnonneg (Ne.symm hzero)
      linarith

/-- The largest powers of ten become infinite. -/
theorem tenTimes_eq_inf : ∀ i : ℕ, i < 22 → tenTimes 22 (powerOfTen (i + 289)) = Float.inf := by
  decide +kernel

theorem tenTimes_zero (times : ℕ) : tenTimes times 0.0 = 0.0 := by
  have hten : (0.0 : Float) * 10.0 = 0.0 := by decide +kernel
  induction times with
  | zero => rfl
  | succ times ih => rw [tenTimes, ih, hten]

section

variable {span most : Float} (hspan : span.isFinite = true) (hspan_pos : 0 < value span)
  (hmost : most.isFinite = true) (hmost_least : 1 ≤ value most) (hmost_le : value most ≤ 2 ^ 65)
include hspan hspan_pos hmost hmost_least hmost_le

/-- A guess that is not zero is large enough within the steps of the search. -/
theorem exists_not_lt_parts (hguess : guess span most ≠ 0.0) :
    ∃ times < maxTenfolds, ¬ most < parts span (tenTimes times (guess span most)) := by
  have hguess_lt := span_lt_guess hspan_pos hmost_least
  have hguess_le := guess_le hspan_pos hmost_least (Decimal.lt_ten_zpow hspan)
  unfold guess at hguess ⊢
  generalize Decimal.roundLog span - Decimal.ceilLog most = e at *
  -- Ten times a very large guess overflows, but an infinite width is large enough too.
  by_cases hlarge : 289 ≤ e
  · obtain ⟨i, hi, rfl⟩ : ∃ i : ℕ, i < 22 ∧ e = i + 289 := ⟨(e - 289).toNat, by omega, by omega⟩
    refine ⟨22, by decide, ?_⟩
    rw [tenTimes_eq_inf i hi]
    exact not_lt_parts_inf hspan hmost hmost_least
  · obtain ⟨hfinite, hguess_most, hzero⟩ := powerOfTen_bounds (e := e) (by omega)
    have hguess_least := hzero.resolve_right hguess
    -- Otherwise five steps make up for the thousand that the guess may be short of.
    have hten := Decimal.ten_zpow_pos e
    have hten_le : (10 : ℚ) ^ e ≤ (2 ^ 94) ^ 10 * 2 ^ 27 :=
      calc (10 : ℚ) ^ e ≤ 10 ^ (288 : ℤ) := Decimal.ten_zpow_le (by omega)
        _ = (10 ^ 28) ^ 10 * 10 ^ 8 := by rw [← pow_mul, ← pow_add, zpow_ofNat]
        _ ≤ (2 ^ 94) ^ 10 * 2 ^ 27 := by gcongr <;> norm_num
    have hsmall : 20 ^ 5 * value (powerOfTen e) ≤ 2 ^ (990 : ℤ) :=
      calc 20 ^ 5 * value (powerOfTen e)
          ≤ 20 ^ 5 * (2 * ((2 ^ 94) ^ 10 * 2 ^ 27)) := by gcongr; linarith
        _ ≤ 2 ^ 23 * ((2 ^ 94) ^ 10 * 2 ^ 27) := by rw [← mul_assoc]; gcongr; norm_num
        _ = 2 ^ (990 : ℤ) := by rw [← pow_mul, ← pow_add, ← pow_add, zpow_ofNat]
    obtain ⟨hfinite, hleast, -⟩ := tenTimes_bounds hfinite (by linarith) hsmall
    have hwide : 4000 * 10 ^ e ≤ value (tenTimes 5 (powerOfTen e)) := by linarith
    refine ⟨5, by decide, not_lt_parts hspan hspan_pos.le hmost hmost_least hmost_le hfinite
      (by linarith) ?_⟩
    have hmul := mul_le_mul_of_nonneg_left hwide (zero_le_one.trans hmost_least)
    linarith

end

/-- The search for a width is given up exactly where it would never end: no
    number of steps is enough. -/
theorem niceWidth_eq_error_iff {span most : Float} {maxBins : ℕ} (hbins : maxBins < 2 ^ 64)
    (hmost : most = Float.ofNat (max maxBins 1)) {cause : Abort} :
    niceWidth span maxBins = .error cause ↔
      cause = .endless ∧ span.isFinite = true ∧ 0 < value span ∧
        ∀ times, most < parts span (tenTimes times (guess span most)) := by
  obtain ⟨hmost_finite, hmost_least, hmost_le⟩ :=
    value_ofNat_bounds (n := max maxBins 1) (by omega) (by omega)
  rw [← hmost] at hmost_finite hmost_least hmost_le
  by_cases hpositive : span.isFinite = true ∧ 0 < value span
  · obtain ⟨hspan, hspan_pos⟩ := hpositive
    have hsearch : niceWidth span maxBins = .error cause ↔
        tenfold span most maxTenfolds (guess span most) = .error cause := by
      rcases niceWidth_cases maxBins hspan hspan_pos hmost with
        ⟨cause', hsearch, hnice⟩ | ⟨width, hsearch, hnice | hnice | hnice⟩ <;>
        simp [hsearch, hnice]
    rw [hsearch, tenfold_eq_error_iff]
    simp only [hspan, hspan_pos, true_and]
    apply and_congr_right
    rintro -
    constructor
    · intro hmore times
      by_cases hguess : guess span most = 0.0
      · rw [hguess, tenTimes_zero]
        exact lt_parts_zero hspan hmost_finite hspan_pos
      · obtain ⟨times, hlt, hfew⟩ :=
          exists_not_lt_parts hspan hspan_pos hmost_finite hmost_least hmost_le hguess
        exact absurd (hmore times hlt) hfew
    · exact fun hmore times _ => hmore times
  · rw [niceWidth_of_not_pos hpositive]
    simp only [reduceCtorEq, false_iff]
    exact fun hendless => hpositive ⟨hendless.2.1, hendless.2.2.1⟩

end PlotGrammar.Binning
