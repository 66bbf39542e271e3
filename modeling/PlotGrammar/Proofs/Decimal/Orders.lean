import PlotGrammar.Proofs.Binary64.Infinity
import PlotGrammar.Proofs.Decimal.Nearness

/-! # Orders of doubles

  The order of a ratio is the power of ten of its leading digit (`order_spec`).
  The rounded logarithms of a double are at most two above it
  (`floorLog_eq_or`, `roundLog_eq_or`, `ceilLog_eq_or`), so they tell its size
  up to a few powers of ten. Above a double is only a power of ten that is close
  to it (`ten_zpow_floorLog_le`).
-/

namespace PlotGrammar.Decimal

/-! ### Orders -/

theorem ten_zpow_pos (e : ℤ) : (0 : ℚ) < 10 ^ e := zpow_pos (by norm_num) e

theorem ten_zpow_le {d e : ℤ} (h : d ≤ e) : (10 : ℚ) ^ d ≤ 10 ^ e :=
  zpow_le_zpow_right₀ (by norm_num) h

/-- A number of that many digits is between two powers of ten. -/
theorem digitCount_spec {n : ℕ} (hn : n ≠ 0) :
    (10 : ℚ) ^ ((digitCount n : ℤ) - 1) ≤ n ∧ (n : ℚ) + 1 ≤ 10 ^ (digitCount n : ℤ) := by
  have hleast := pow_digitCount_le hn
  have hmost := lt_pow_digitCount n
  have hpos : 0 < digitCount n := Nat.length_toDigits_pos
  constructor
  · have hexponent : (digitCount n : ℤ) - 1 = (digitCount n - 1 : ℕ) := by omega
    rw [hexponent, zpow_natCast]
    exact_mod_cast hleast
  · rw [zpow_natCast]
    exact_mod_cast hmost

/-- A quotient of naturals is within one of its whole part. -/
theorem div_bounds (num : ℕ) {den : ℕ} (hden : 0 < den) :
    ((num / den : ℕ) : ℚ) ≤ num / den ∧ (num : ℚ) / den < (num / den : ℕ) + 1 := by
  have hcast : (0 : ℚ) < den := by exact_mod_cast hden
  constructor
  · exact Nat.cast_div_le
  · rw [div_lt_iff₀ hcast]
    have hlt := Nat.lt_mul_of_div_lt (Nat.lt_succ_self (num / den)) hden
    exact_mod_cast hlt

/-- Below one the digits of the inverse are counted. -/
theorem digitCount_inverse {num den : ℕ} (hnum : 0 < num) (hlt : num < den) :
    (10 : ℚ) ^ (-(digitCount (den / num) : ℤ)) ≤ num / den ∧
      (num : ℚ) / den ≤ 10 ^ (-((digitCount (den / num) : ℤ) - 1)) := by
  have hden : (0 : ℚ) < den := by exact_mod_cast hnum.trans hlt
  have hnum' : (0 : ℚ) < num := by exact_mod_cast hnum
  have hquotient : den / num ≠ 0 := Nat.ne_of_gt (Nat.div_pos hlt.le hnum)
  obtain ⟨hleast, hmost⟩ := digitCount_spec hquotient
  obtain ⟨hdown, hup⟩ := div_bounds den hnum
  have hinverse : (num : ℚ) / den = ((den : ℚ) / num)⁻¹ := (inv_div _ _).symm
  rw [hinverse, zpow_neg, zpow_neg]
  constructor
  · exact inv_anti₀ (div_pos hden hnum') (hup.le.trans hmost)
  · exact inv_anti₀ (ten_zpow_pos _) (hleast.trans hdown)

/-- The order of a positive ratio is the power of ten next below it. -/
theorem order_spec {num den : ℕ} (hnum : 0 < num) (hden : 0 < den) :
    (10 : ℚ) ^ order num den ≤ num / den ∧ (num : ℚ) / den < 10 ^ (order num den + 1) := by
  have hden' : (0 : ℚ) < den := by exact_mod_cast hden
  unfold order
  split
  · next hle =>
    have hquotient : num / den ≠ 0 := Nat.ne_of_gt (Nat.div_pos hle hden)
    obtain ⟨hleast, hmost⟩ := digitCount_spec hquotient
    obtain ⟨hdown, hup⟩ := div_bounds num hden
    rw [sub_add_cancel]
    exact ⟨hleast.trans hdown, hup.trans_le hmost⟩
  · next hlt =>
    obtain ⟨hleast, hmost⟩ := digitCount_inverse hnum (Nat.not_le.1 hlt)
    have hpos : 0 < digitCount (den / num) := Nat.length_toDigits_pos
    -- The ratio is compared with the power of ten between the two.
    have hpower : den ≤ num * Nat.pow 10 (digitCount (den / num) - 1) ↔
        (10 : ℚ) ^ (-((digitCount (den / num) : ℤ) - 1)) ≤ num / den := by
      have hexponent : (digitCount (den / num) : ℤ) - 1 = (digitCount (den / num) - 1 : ℕ) := by
        omega
      rw [hexponent, zpow_neg, zpow_natCast, le_div_iff₀ hden', inv_mul_le_iff₀ (by positivity),
        mul_comm, Nat.pow_eq]
      exact_mod_cast Iff.rfl
    dsimp only
    split
    · next hle =>
      refine ⟨hpower.1 hle, hmost.trans_lt ?_⟩
      exact zpow_lt_zpow_right₀ (by norm_num) (by omega)
    · next hnot =>
      have hexponent : -(digitCount (den / num) : ℤ) + 1 = -((digitCount (den / num) : ℤ) - 1) := by
        omega
      rw [hexponent]
      exact ⟨hleast, not_le.1 (mt hpower.2 hnot)⟩

/-! ### Rounded logarithms -/

section

variable (x : Float)

theorem floorLog_eq_or : floorLog x = order (Binary64.units x) Binary64.one ∨
    floorLog x = order (Binary64.units x) Binary64.one + 1 := by
  unfold floorLog
  dsimp only
  split
  · exact .inr rfl
  · exact .inl rfl

theorem ceilLog_eq_or : ceilLog x = floorLog x ∨ ceilLog x = floorLog x + 1 := by
  unfold ceilLog
  dsimp only
  split
  · exact .inr rfl
  · exact .inl rfl

theorem roundLog_eq_or : roundLog x = floorLog x ∨ roundLog x = floorLog x + 1 := by
  unfold roundLog
  dsimp only
  split
  · split
    · exact .inr rfl
    · exact .inl rfl
  · split
    · exact .inr rfl
    · exact .inl rfl

end

section

variable {x : Float} (h : 0 < Binary64.value x)
include h

/-- The order of a positive double. -/
theorem order_units : (10 : ℚ) ^ order (Binary64.units x) Binary64.one ≤ Binary64.value x ∧
    Binary64.value x < 10 ^ (order (Binary64.units x) Binary64.one + 1) := by
  have hvalue : Binary64.value x = Binary64.units x / Binary64.one := by
    rw [← Binary64.abs_value, abs_of_pos h]
  have hunits : 0 < Binary64.units x := by
    by_contra hzero
    rw [hvalue, Nat.eq_zero_of_not_pos hzero, Nat.cast_zero, zero_div] at h
    exact lt_irrefl _ h
  rw [hvalue]
  exact order_spec hunits Binary64.one_pos

/-- The order of a double is known from a bound above. -/
theorem order_le {e : ℤ} (hx : Binary64.value x < 10 ^ (e + 1)) :
    order (Binary64.units x) Binary64.one ≤ e := by
  have hlt := (zpow_lt_zpow_iff_right₀ (by norm_num : (1 : ℚ) < 10)).1 ((order_units h).1.trans_lt hx)
  omega

/-- The order of a double is known from a bound below. -/
theorem le_order {e : ℤ} (hx : 10 ^ e ≤ Binary64.value x) :
    e ≤ order (Binary64.units x) Binary64.one := by
  have hlt := (zpow_lt_zpow_iff_right₀ (by norm_num : (1 : ℚ) < 10)).1 (hx.trans_lt (order_units h).2)
  omega

end

/-- Below one the order is not positive; also for zero, which has none. -/
theorem order_nonpos {num den : ℕ} (h : num < den) : order num den ≤ 0 := by
  have hpos : 0 < digitCount (den / num) := Nat.length_toDigits_pos
  rw [order, if_neg (Nat.not_le.2 h)]
  dsimp only
  split
  · omega
  · omega

/-- The rounded logarithm of a double that is not negative is bounded. -/
theorem floorLog_le {x : Float} {e : ℤ} (he : 0 ≤ e) (hnonneg : 0 ≤ Binary64.value x)
    (hx : Binary64.value x < 10 ^ (e + 1)) : floorLog x ≤ e + 1 := by
  have horder : order (Binary64.units x) Binary64.one ≤ e := by
    rcases hnonneg.lt_or_eq with hpos | hzero
    · exact order_le hpos hx
    · have habs := Binary64.abs_value x
      rw [← hzero, abs_zero, eq_comm, div_eq_zero_iff, Nat.cast_eq_zero] at habs
      have hunits := habs.resolve_right Binary64.one_cast_pos.ne'
      rw [hunits]
      exact (order_nonpos Binary64.one_pos).trans he
  have hlog := floorLog_eq_or x
  omega

/-! ### Powers of ten next to a double -/

theorem gap_le (below : Bool) (t : ℤ) : gap below t ≤ 2 * t.natAbs := by
  unfold gap
  dsimp only
  split
  · omega
  · next hne =>
    have hle : Nat.pow 2 t.natAbs.log2 ≤ t.natAbs := Nat.log2_self_le hne
    split
    · omega
    · rw [Nat.pow_eq] at hle ⊢
      rw [pow_succ']
      omega

theorem margin_le (below : Bool) {t : ℤ} (h : t.natAbs ≤ 2 ^ 30) :
    margin below t ≤ 3 * marginOne := by
  have hgap := gap_le below t
  have hone : marginOne = 10 ^ 12 * 2 ^ 55 := rfl
  unfold margin twiceLogTen
  omega

/-- A double whose rounded logarithm reaches that of a power of ten is not far
    below it. -/
theorem ten_zpow_le_of_reaches {x : Float} {e : ℤ} (he : (2 * e).natAbs ≤ 2 ^ 30)
    (h : reaches x (2 * e) = true) : 10 ^ e ≤ 2 * |Binary64.value x| := by
  have hden : (0 : ℚ) < (tenTo (2 * e)).2 := by exact_mod_cast ratio_snd_pos ⟨1, 2 * e⟩
  have hmargin := margin_le true he
  have hmargin_pos : 0 < marginOne := by decide
  have hsize := Binary64.abs_value x
  have hone := Binary64.one_cast_pos
  have hpower : (10 ^ e : ℚ) ^ 2 = (tenTo (2 * e)).1 / (tenTo (2 * e)).2 := by
    rw [value_tenTo, ← zpow_natCast, ← zpow_mul, mul_comm]
    rfl
  rw [reaches, decide_eq_true_eq] at h
  -- What is compared are squares, in units and up to the margin.
  generalize tenTo (2 * e) = power at *
  generalize margin true (2 * e) = room at *
  generalize Binary64.one = one at *
  generalize marginOne = scale at *
  have hle : (power.1 : ℚ) * one ^ 2 * scale ≤ Binary64.units x ^ 2 * (4 * scale) * power.2 := by
    have hroom : Binary64.units x ^ 2 * (scale + room) ≤ Binary64.units x ^ 2 * (4 * scale) :=
      Nat.mul_le_mul_left _ (by omega)
    exact_mod_cast h.trans (Nat.mul_le_mul_right _ hroom)
  have hsquare : (10 ^ e : ℚ) ^ 2 ≤ (2 * |Binary64.value x|) ^ 2 := by
    have hscale : (0 : ℚ) < scale := by exact_mod_cast hmargin_pos
    rw [hpower, hsize, mul_pow, div_pow, div_le_iff₀ hden, mul_div_assoc', div_mul_eq_mul_div,
      le_div_iff₀ (by positivity)]
    apply le_of_mul_le_mul_right _ hscale
    linarith
  exact (pow_le_pow_iff_left₀ (ten_zpow_pos e).le (by positivity) two_ne_zero).1 hsquare

/-- The largest double is below `10^309`. -/
theorem lt_ten_zpow {x : Float} (hx : x.isFinite = true) : Binary64.value x < 10 ^ (309 : ℤ) :=
  calc Binary64.value x < 2 ^ (1024 : ℤ) := (le_abs_self _).trans_lt (Binary64.abs_value_lt hx)
    _ = (2 ^ 93) ^ 11 * 2 ^ 1 := by rw [← pow_mul, ← pow_add, zpow_ofNat]
    _ < (10 ^ 28) ^ 11 * 10 ^ 1 := by gcongr <;> norm_num
    _ = 10 ^ (309 : ℤ) := by rw [← pow_mul, ← pow_add, zpow_ofNat]

/-- The least positive double is above `10^-324`. -/
theorem ten_zpow_le_value {x : Float} (h : 0 < Binary64.value x) :
    10 ^ (-324 : ℤ) ≤ Binary64.value x := by
  have hvalue := Binary64.abs_value x
  rw [abs_of_pos h] at hvalue
  have hunits : (1 : ℚ) ≤ Binary64.units x := by
    rw [Nat.one_le_cast, Nat.one_le_iff_ne_zero]
    intro hzero
    rw [hzero, Nat.cast_zero, zero_div] at hvalue
    exact h.ne' hvalue
  have hten := ten_zpow_pos 324
  rw [hvalue, Binary64.one_eq_zpow, le_div_iff₀ (Binary64.two_zpow_pos _), zpow_neg,
    inv_mul_le_iff₀ hten]
  calc (2 : ℚ) ^ (1074 : ℤ) = (2 ^ 93) ^ 11 * 2 ^ 51 := by rw [← pow_mul, ← pow_add, zpow_ofNat]
    _ ≤ (10 ^ 28) ^ 11 * 10 ^ 16 := by gcongr <;> norm_num
    _ = 10 ^ (324 : ℤ) := by rw [← pow_mul, ← pow_add, zpow_ofNat]
    _ ≤ 10 ^ (324 : ℤ) * Binary64.units x := le_mul_of_one_le_right hten.le hunits

/-- A double is not far below the power of ten of its rounded logarithm. -/
theorem ten_zpow_floorLog_le {x : Float} (hx : x.isFinite = true) (h : 0 < Binary64.value x) :
    10 ^ floorLog x ≤ 2 * Binary64.value x := by
  have horder := (order_units h).1
  have hmost := order_le (e := 308) h (lt_ten_zpow hx)
  have hleast := le_order (e := -324) h (ten_zpow_le_value h)
  unfold floorLog
  dsimp only
  split
  · next hreaches =>
    have hle := ten_zpow_le_of_reaches (by omega) hreaches
    rwa [abs_of_pos h] at hle
  · linarith

end PlotGrammar.Decimal
