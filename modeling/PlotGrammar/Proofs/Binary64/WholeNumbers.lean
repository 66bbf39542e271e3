import PlotGrammar.Proofs.Binary64.Arithmetic

/-! # Rounding to whole numbers

  A whole number of up to 53 bits is a double (`value_ofNat`), so rounding a
  double to a whole number is exact: `floor` and `ceil` find the whole numbers
  next to it (`value_floor`, `value_ceil`), `round` the nearest one
  (`value_round`).
-/

namespace PlotGrammar.Binary64

open Float.Model Float.Model.UnpackedFloat

/-! ### Whole numbers -/

theorem two_zpow_le_thousand {k : ℤ} (h : k ≤ 1000) : (2 : ℚ) ^ k ≤ 2 ^ (1000 : ℤ) :=
  zpow_le_zpow_right₀ (by norm_num) h

theorem cast_lt_thousand {n : ℕ} (h : n < 2 ^ 64) : |(n : ℚ)| < 2 ^ (1000 : ℤ) := by
  have hcast : (n : ℚ) < 2 ^ (64 : ℤ) := by exact_mod_cast h
  rw [abs_of_nonneg (Nat.cast_nonneg n)]
  exact hcast.trans_le (two_zpow_le_thousand (by norm_num))

theorem nearest_toFloat (n : UInt64) : Nearest n.toNat n.toFloat := by
  obtain ⟨hround, hcanonical⟩ := isRounding_normalize n.toNat 0 .positive
  rw [zpow_zero, mul_one, Int.cast_natCast] at hround
  exact nearest_pack hround hcanonical (cast_lt_thousand n.toNat_lt)

theorem nearest_ofScientific {n : ℕ} (hpos : 0 < n) (h : n < 2 ^ 64) :
    Nearest n (Float.ofModel (.ofScientific n 0)) := by
  have hlog : (n <<< 53).log2 = n.log2 + 53 := log2_shiftLeft hpos 53
  obtain ⟨hround, hcanonical⟩ := isRounding_roundWithAccuracy (e := 0 - (53 : ℕ)) .positive
    (lies_exact (n <<< 53)) (.inl (by omega))
  rw [shiftLeft_mul_two_zpow, zpow_zero, mul_one] at hround
  have hfactors : UnpackedFloat.ofScientific .binary64 n 0 =
      roundWithAccuracy .binary64 .positive (n <<< 53) (0 - (53 : ℕ)) .exact := by
    have hleast : ¬ (0 : ℤ) < -(2 ^ 11 + n.log2) := by omega
    unfold UnpackedFloat.ofScientific
    rw [dif_neg (Nat.ne_of_gt hpos), if_neg (by decide), if_neg hleast, if_pos (le_refl 0)]
    show roundWithAccuracy .binary64 .positive ((n <<< 53) * 1) (-(53 : ℕ) + 0) .exact = _
    rw [Nat.mul_one, add_zero, zero_sub]
  rw [← hfactors] at hround hcanonical
  exact nearest_pack hround hcanonical (cast_lt_thousand h)

/-- A whole number of 64 bits is rounded once. -/
theorem nearest_ofNat {n : ℕ} (h : n < 2 ^ 64) : Nearest n (Float.ofNat n) := by
  show Nearest n (Float.ofScientific n false 0)
  unfold Float.ofScientific
  split
  · next hsmall =>
    have hcast : n.toUInt64.toNat = n := Nat.mod_eq_of_lt h
    have hfloat := nearest_toFloat n.toUInt64
    rw [hcast] at hfloat
    have hvalue : value n.toUInt64.toFloat = n := by
      apply hfloat.value_eq (a := n) (j := 0)
      · rw [abs_of_nonneg (Int.natCast_nonneg n)]
        exact_mod_cast hsmall.1
      · norm_num
      · simp
    have hone : value (Float.ofBits 0x3FF0000000000000) = 1 := by decide +kernel
    have hfinite : (Float.ofBits 0x3FF0000000000000).isFinite = true := by decide
    have hproduct := nearest_mul hfloat.isFinite hfinite
      (by rw [hvalue, hone, mul_one]; exact cast_lt_thousand h)
    rw [hvalue, hone, mul_one] at hproduct
    exact hproduct
  · next hlarge =>
    have hpos : 0 < n := by
      by_contra hzero
      exact hlarge ⟨by omega, by norm_num⟩
    exact nearest_ofScientific hpos h

/-- A whole number of at most 53 bits is a double. -/
theorem value_ofNat {n : ℕ} (h : n ≤ 2 ^ 53) : value (Float.ofNat n) = n := by
  have hnearest := nearest_ofNat (n := n) (by omega)
  rcases h.lt_or_eq with hlt | heq
  · apply hnearest.value_eq (a := n) (j := 0)
    · rw [abs_of_nonneg (Int.natCast_nonneg n)]
      exact_mod_cast hlt
    · norm_num
    · simp
  · apply hnearest.value_eq (a := 1) (j := 53)
    · norm_num
    · norm_num
    · rw [heq]
      norm_num

/-- The negative of a double stands for the negative number. -/
theorem value_neg {x : Float} (hx : x.isFinite = true) (hsmall : |value x| < 2 ^ (1024 : ℤ)) :
    (-x).isFinite = true ∧ value (-x) = -value x := by
  have hnumber : numberOf x.toModel.unpack.neg = -value x := by
    rw [numberOf_neg, value_eq_numberOf hx]
  have hpack := value_pack (isCanonical_unpack hx).neg (by rwa [hnumber, abs_neg])
  rw [hnumber] at hpack
  exact hpack

@[simp]
theorem numberOf_abs (a : UnpackedFloat) : numberOf a.abs = |numberOf a| := by
  cases a with
  | infinity s => exact abs_zero.symm
  | notANumber => exact abs_zero.symm
  | zero s => exact abs_zero.symm
  | finite s m e hm =>
    have hpos := mul_two_zpow_pos hm e
    cases s with
    | negative =>
      rw [numberOf_negative, abs_neg, abs_of_pos hpos]
      exact numberOf_positive hm
    | positive =>
      rw [numberOf_positive, abs_of_pos hpos]
      exact numberOf_positive hm

theorem IsCanonical.abs {a : UnpackedFloat} (h : IsCanonical a) : IsCanonical a.abs := by
  cases h with
  | zero s => exact .zero .positive
  | finite s hm h => exact .finite .positive hm h

/-- The size of a double stands for the size of the number. -/
theorem value_abs {x : Float} (hx : x.isFinite = true) (hsmall : |value x| < 2 ^ (1024 : ℤ)) :
    x.abs.isFinite = true ∧ value x.abs = |value x| := by
  have hnumber : numberOf x.toModel.unpack.abs = |value x| := by
    rw [numberOf_abs, value_eq_numberOf hx]
  have hpack := value_pack (isCanonical_unpack hx).abs (by rwa [hnumber, abs_abs])
  rw [hnumber] at hpack
  exact hpack

/-! ### Rounding -/

section

variable {x : Float}

theorem value_of_negative (h : negative x = true) : value x = -(units x / one) := by
  rw [value, if_pos h, neg_div]

theorem value_of_not_negative (h : ¬ negative x = true) : value x = units x / one := by
  rw [value, if_neg h]

theorem units_lt (hsmall : |value x| < 2 ^ 53) : units x < 2 ^ 53 * one := by
  rw [← abs_value_lt_iff]
  exact_mod_cast hsmall

/-- Rounding to a whole number of at most 53 bits is exact. -/
theorem value_roundSize (whole : ℕ → ℕ) (hx : x.isFinite = true) (hsmall : |value x| < 2 ^ 53)
    (hwhole : whole (units x) ≤ 2 ^ 53) :
    (roundSize x whole).isFinite = true ∧
      value (roundSize x whole) =
        if negative x then -(whole (units x) : ℚ) else whole (units x) := by
  have hunits := units_lt hsmall
  have hfinite : (Float.ofNat (whole (units x))).isFinite = true := isFinite_ofNat (by omega)
  have hvalue := value_ofNat hwhole
  simp only [roundSize, hx, Nat.pow_eq, hunits, decide_true, Bool.and_self, if_true]
  by_cases hsign : negative x = true
  · rw [if_pos hsign, if_pos hsign, ← hvalue]
    apply value_neg hfinite
    rw [hvalue, abs_of_nonneg (Nat.cast_nonneg _)]
    have hcast : (whole (units x) : ℚ) ≤ 2 ^ (53 : ℤ) := by exact_mod_cast hwhole
    exact hcast.trans_lt (zpow_lt_zpow_right₀ (by norm_num) (by norm_num))
  · rw [if_neg hsign, if_neg hsign]
    exact ⟨hfinite, hvalue⟩

/-- Doubles beyond 53 bits are whole already. -/
theorem roundSize_of_le {whole : ℕ → ℕ} (hlarge : 2 ^ 53 ≤ |value x|) : roundSize x whole = x := by
  have hunits : ¬ units x < Nat.pow 2 53 * one := by
    rw [← abs_value_lt_iff, not_lt]
    exact_mod_cast hlarge
  simp [roundSize, hunits]

/-! ### Rounding down and up -/

theorem div_le_of_lt_mul {u n scale : ℕ} (h : u < n * scale) :
    u / scale ≤ n ∧ (u + scale - 1) / scale ≤ n := by
  have hpos : 0 < scale := by
    by_contra hzero
    rw [Nat.eq_zero_of_not_pos hzero, Nat.mul_zero] at h
    exact Nat.not_lt_zero u h
  constructor
  · exact ((Nat.div_lt_iff_lt_mul hpos).2 h).le
  · apply Nat.le_of_lt_succ
    rw [Nat.div_lt_iff_lt_mul hpos, Nat.succ_mul]
    omega

theorem floor_units (u : ℕ) : ⌊(u : ℚ) / one⌋ = (u / one : ℕ) :=
  Rat.floor_natCast_div_natCast u one

theorem ceil_units (u : ℕ) : ⌈(u : ℚ) / one⌉ = ((u + one - 1) / one : ℕ) := by
  have hpos := one_pos
  generalize one = scale at *
  have hcast : (0 : ℚ) < scale := by exact_mod_cast hpos
  have hmost := Nat.div_mul_le_self (u + scale - 1) scale
  have hleast := Nat.lt_mul_of_div_lt (Nat.lt_succ_self ((u + scale - 1) / scale)) hpos
  generalize (u + scale - 1) / scale = k at *
  rw [Nat.succ_mul] at hleast
  rw [Int.ceil_eq_iff, lt_div_iff₀ hcast, div_le_iff₀ hcast, sub_mul, one_mul]
  constructor
  · have hlt : k * scale < u + scale := by omega
    have hlt' : ((k * scale : ℕ) : ℚ) < (u + scale : ℕ) := Nat.cast_lt.2 hlt
    push_cast at hlt' ⊢
    linarith
  · have hle : u ≤ k * scale := by omega
    exact_mod_cast hle

/-- The whole number next below. -/
theorem value_floor (hx : x.isFinite = true) (hsmall : |value x| < 2 ^ 53) :
    (floor x).isFinite = true ∧ value (floor x) = ⌊value x⌋ := by
  obtain ⟨hdown, hup⟩ := div_le_of_lt_mul (units_lt hsmall)
  by_cases hsign : negative x = true
  · obtain ⟨hfinite, hvalue⟩ := value_roundSize (fun u =>
      if negative x then (u + one - 1) / one else u / one) hx hsmall (by simpa only [if_pos hsign] using hup)
    refine ⟨hfinite, hvalue.trans ?_⟩
    rw [if_pos hsign, if_pos hsign, value_of_negative hsign, Int.floor_neg, ceil_units]
    push_cast
    rfl
  · obtain ⟨hfinite, hvalue⟩ := value_roundSize (fun u =>
      if negative x then (u + one - 1) / one else u / one) hx hsmall (by simpa only [if_neg hsign] using hdown)
    refine ⟨hfinite, hvalue.trans ?_⟩
    rw [if_neg hsign, if_neg hsign, value_of_not_negative hsign, floor_units, Int.cast_natCast]

/-- The whole number next above. -/
theorem value_ceil (hx : x.isFinite = true) (hsmall : |value x| < 2 ^ 53) :
    (ceil x).isFinite = true ∧ value (ceil x) = ⌈value x⌉ := by
  obtain ⟨hdown, hup⟩ := div_le_of_lt_mul (units_lt hsmall)
  by_cases hsign : negative x = true
  · obtain ⟨hfinite, hvalue⟩ := value_roundSize (fun u =>
      if negative x then u / one else (u + one - 1) / one) hx hsmall (by simpa only [if_pos hsign] using hdown)
    refine ⟨hfinite, hvalue.trans ?_⟩
    rw [if_pos hsign, if_pos hsign, value_of_negative hsign, Int.ceil_neg, floor_units]
    push_cast
    rfl
  · obtain ⟨hfinite, hvalue⟩ := value_roundSize (fun u =>
      if negative x then u / one else (u + one - 1) / one) hx hsmall (by simpa only [if_neg hsign] using hup)
    refine ⟨hfinite, hvalue.trans ?_⟩
    rw [if_neg hsign, if_neg hsign, value_of_not_negative hsign, ceil_units, Int.cast_natCast]

/-! ### Rounding to the nearest -/

/-- Halves are rounded up, so the nearest whole number is a half away at most. -/
theorem abs_round_units_sub_le (u : ℕ) :
    |(((2 * u + one) / (2 * one) : ℕ) : ℚ) - u / one| ≤ 1 / 2 := by
  have hpos := one_pos
  generalize one = scale at *
  have hcast : (0 : ℚ) < scale := by exact_mod_cast hpos
  have hmost := Nat.div_mul_le_self (2 * u + scale) (2 * scale)
  have hleast := Nat.lt_mul_of_div_lt (Nat.lt_succ_self ((2 * u + scale) / (2 * scale)))
    (Nat.mul_pos two_pos hpos)
  generalize (2 * u + scale) / (2 * scale) = k at *
  have hmost' : ((k * (2 * scale) : ℕ) : ℚ) ≤ (2 * u + scale : ℕ) := Nat.cast_le.2 hmost
  have hleast' : ((2 * u + scale : ℕ) : ℚ) < (k.succ * (2 * scale) : ℕ) := Nat.cast_lt.2 hleast
  have hu : (u : ℚ) = u / scale * scale := (div_mul_cancel₀ _ hcast.ne').symm
  push_cast at hmost' hleast'
  generalize (u : ℚ) / scale = z at *
  have hle : (k - z) * scale ≤ 1 / 2 * scale := by linarith
  have hge : -(1 / 2) * (scale : ℚ) ≤ (k - z) * scale := by linarith
  exact abs_le.2 ⟨le_of_mul_le_mul_right hge hcast, le_of_mul_le_mul_right hle hcast⟩

/-- A number is rounded to a whole number that is a half away at most. -/
theorem exists_round (hx : x.isFinite = true) (hsmall : |value x| < 2 ^ 52) :
    (round x).isFinite = true ∧ ∃ n : ℤ, value (round x) = n ∧ |n - value x| ≤ 1 / 2 := by
  have hclose := abs_round_units_sub_le (units x)
  rw [← abs_value] at hclose
  have hwhole : (2 * units x + one) / (2 * one) ≤ 2 ^ 53 := by
    have hle := (abs_le.1 hclose).2
    have hcast : (((2 * units x + one) / (2 * one) : ℕ) : ℚ) ≤ (2 ^ 53 : ℕ) := by
      push_cast at hle ⊢
      linarith
    exact_mod_cast hcast
  obtain ⟨hfinite, hvalue⟩ := value_roundSize (fun u => (2 * u + one) / (2 * one)) hx
    (hsmall.trans (by norm_num)) hwhole
  generalize (2 * units x + one) / (2 * one) = n at hclose hvalue
  by_cases hsign : negative x = true
  · refine ⟨hfinite, -n, ?_, ?_⟩
    · rw [if_pos hsign] at hvalue
      push_cast
      exact hvalue
    · have hneg : value x = -|value x| := by
        rw [abs_value, value_of_negative hsign]
      rw [hneg, Int.cast_neg, Int.cast_natCast, ← abs_neg]
      convert hclose using 2
      ring
  · refine ⟨hfinite, n, ?_, ?_⟩
    · rw [if_neg hsign] at hvalue
      push_cast
      exact hvalue
    · have hpos : value x = |value x| := by
        rw [abs_value, value_of_not_negative hsign]
      rw [hpos, Int.cast_natCast]
      exact hclose

/-- A number that is close to a whole number is rounded to it. -/
theorem value_round (hx : x.isFinite = true) (hsmall : |value x| < 2 ^ 52) {k : ℤ}
    (hk : |value x - k| < 1 / 2) : (round x).isFinite = true ∧ value (round x) = k := by
  obtain ⟨hfinite, n, hvalue, hn⟩ := exists_round hx hsmall
  -- Two whole numbers that are less than one apart are the same.
  have hlt : |((n - k : ℤ) : ℚ)| < 1 := by
    rw [Int.cast_sub, ← sub_add_sub_cancel _ (value x)]
    exact (abs_add_le _ _).trans_lt (by linarith)
  have hzero : n - k = 0 := Int.abs_lt_one_iff.1 (by exact_mod_cast hlt)
  rw [hvalue, sub_eq_zero.1 hzero]
  exact ⟨hfinite, rfl⟩

end

end PlotGrammar.Binary64
