import PlotGrammar.Proofs.Binary64.Nearest

/-! # Arithmetic of doubles

  A sum, difference, product or quotient of finite doubles is the double
  nearest to the exact one (`nearest_add`, `nearest_sub`, `nearest_mul`,
  `nearest_div`), unless that is close to the largest double. A double that is
  nearest to a number is off by at most half of its last bit
  (`Nearest.error`).
-/

namespace PlotGrammar.Binary64

open Float.Model Float.Model.UnpackedFloat

/-! ### Putting doubles together -/

/-- The exponent of what is below `2^1024` fits. -/
theorem Canonical.exponent_le {m : ℕ} {e : ℤ} (h : Canonical m e)
    (hsmall : (m : ℚ) * 2 ^ e < 2 ^ (1024 : ℤ)) : e ≤ 971 := by
  rcases h.normal with hnormal | hleast
  · have hpower : (2 : ℚ) ^ (52 + e) < 2 ^ (1024 : ℤ) := by
      have hcast : (2 : ℚ) ^ 52 ≤ m := by exact_mod_cast hnormal
      rw [zpow_add₀ (by norm_num)]
      exact (mul_le_mul_of_nonneg_right hcast (two_zpow_pos e).le).trans_lt hsmall
    have hlt := (zpow_lt_zpow_iff_right₀ (by norm_num : (1 : ℚ) < 2)).1 hpower
    omega
  · omega

theorem unpack_pack_finite (sign : Sign) {m : ℕ} {e : ℤ} (hm : 0 < m) (h : Canonical m e)
    (he : e ≤ 971) :
    UnpackedFloat.unpack .binary64 ((UnpackedFloat.finite sign m e hm).pack .binary64) =
      .finite sign m e hm := by
  have hleast := h.least
  have hlt := h.lt
  show UnpackedFloat.unpack .binary64
    (if 2 ^ 11 ≤ (e + 1023 + 52).toNat + 1 then packedInfinity .binary64 sign
    else if m.log2 + 1 = 53 then
      packComponents .binary64 sign (BitVec.ofNat 11 (e + 1023 + 52).toNat) (BitVec.ofNat 52 m)
    else packComponents .binary64 sign 0#11 (BitVec.ofNat 52 m)) = _
  rw [if_neg (by omega)]
  by_cases hbits : 2 ^ 52 ≤ m
  · have hlog : m.log2 + 1 = 53 := by
      have := (Nat.log2_eq_iff (k := 52) (Nat.ne_of_gt hm)).2 ⟨hbits, hlt⟩
      omega
    have hexponent : (BitVec.ofNat 11 (e + 1023 + 52).toNat).toNat = (e + 1023 + 52).toNat := by
      rw [BitVec.toNat_ofNat]
      exact Nat.mod_eq_of_lt (by omega)
    have hmantissa : (BitVec.ofNat 52 m).toNat = m - 2 ^ 52 := by
      rw [BitVec.toNat_ofNat]
      omega
    rw [if_pos hlog, unpack_normal sign _ (by omega) (by omega) (by omega)]
    exact finite_congr sign _ _ (by omega) (by omega)
  · have hlog := log2_lt_of_lt (by decide) (Nat.not_le.1 hbits)
    have hmantissa : (BitVec.ofNat 52 m).toNat = m := by
      rw [BitVec.toNat_ofNat]
      omega
    have hexponent : e = -1074 := by
      rcases h.normal with hnormal | hleast
      · exact absurd hnormal hbits
      · exact hleast
    rw [if_neg (by omega), unpack_subnormal sign (by omega)]
    exact finite_congr sign _ _ hmantissa hexponent.symm

/-- What is put together is taken apart into the same. -/
theorem IsCanonical.unpack_pack {a : UnpackedFloat} (h : IsCanonical a)
    (hsmall : |numberOf a| < 2 ^ (1024 : ℤ)) :
    UnpackedFloat.unpack .binary64 (a.pack .binary64) = a := by
  cases h with
  | zero sign => exact unpack_packedZero
  | @finite sign m e hm h =>
    apply unpack_pack_finite sign hm h
    apply h.exponent_le
    have hpos := mul_two_zpow_pos hm e
    cases sign with
    | negative => rwa [numberOf_negative, abs_neg, abs_of_pos hpos] at hsmall
    | positive => rwa [numberOf_positive, abs_of_pos hpos] at hsmall

theorem IsCanonical.isFinite {a : UnpackedFloat} (h : IsCanonical a) : a.isFinite = true := by
  cases h with
  | zero sign => rfl
  | finite sign hm h => rfl

/-! ### Nearest doubles -/

/-- The double is finite and the number rounded. -/
structure Nearest (z : ℚ) (x : Float) : Prop where
  isFinite : x.isFinite = true
  isRounding : IsRounding z (value x)

section

variable {z : ℚ} {x : Float} (h : Nearest z x)
include h

theorem Nearest.error {k : ℤ} (hk : -1021 ≤ k) (hz : |z| < 2 ^ k) :
    |value x - z| ≤ 2 ^ (k - 54) :=
  h.isRounding.error hk hz

theorem Nearest.bounds (hz : 0 ≤ z) : 0 ≤ value x ∧ value x ≤ 2 * z := h.isRounding.bounds hz

theorem Nearest.value_eq {a j : ℤ} (ha : |a| < 2 ^ 53) (hj : -1074 ≤ j) (hz : z = a * 2 ^ j) :
    value x = z :=
  h.isRounding.eq ha hj hz

end

/-- A double that is put together stands for the number it is put together from. -/
theorem value_pack {a : UnpackedFloat} (ha : IsCanonical a)
    (hsmall : |numberOf a| < 2 ^ (1024 : ℤ)) :
    (Float.ofModel (.pack a)).isFinite = true ∧ value ⟨.pack a⟩ = numberOf a := by
  have hunpack : (Float.ofModel (.pack a)).toModel.unpack = a := ha.unpack_pack hsmall
  have hfinite : (Float.ofModel (.pack a)).isFinite = true := by
    show (Float.ofModel (.pack a)).toModel.unpack.isFinite = true
    rw [hunpack]
    exact ha.isFinite
  exact ⟨hfinite, by rw [value_eq_numberOf hfinite, hunpack]⟩

/-- A rounded number that is put together is nearest to the number. -/
theorem nearest_pack {a : UnpackedFloat} {z : ℚ} (h : IsRounding z (numberOf a))
    (ha : IsCanonical a) (hz : |z| < 2 ^ (1000 : ℤ)) : Nearest z ⟨.pack a⟩ := by
  have hsmall : |numberOf a| < 2 ^ (1024 : ℤ) := by
    have herror : |numberOf a - z| ≤ 2 ^ (1000 : ℤ) :=
      (h.error (by norm_num) hz).trans (zpow_le_zpow_right₀ (by norm_num) (by norm_num))
    calc |numberOf a| = |numberOf a - z + z| := by rw [sub_add_cancel]
      _ ≤ |numberOf a - z| + |z| := abs_add_le _ _
      _ ≤ 2 ^ (1000 : ℤ) + 2 ^ (1000 : ℤ) := add_le_add herror hz.le
      _ = 2 ^ (1 + 1000 : ℤ) := by rw [zpow_one_add₀ (by norm_num), two_mul]
      _ < 2 ^ (1024 : ℤ) := zpow_lt_zpow_right₀ (by norm_num) (by norm_num)
  obtain ⟨hfinite, hvalue⟩ := value_pack ha hsmall
  refine ⟨hfinite, ?_⟩
  rwa [hvalue]

/-! ### Normalizing -/

theorem shiftLeft_mul_two_zpow (m shift : ℕ) (e : ℤ) :
    ((m <<< shift : ℕ) : ℚ) * 2 ^ (e - shift) = m * 2 ^ e := by
  rw [Nat.shiftLeft_eq, Nat.cast_mul, Nat.cast_pow, Nat.cast_ofNat, mul_assoc, ← zpow_natCast,
    ← zpow_add₀ (by norm_num), add_sub_cancel]

theorem log2_shiftLeft {m : ℕ} (hm : 0 < m) (shift : ℕ) : (m <<< shift).log2 = m.log2 + shift := by
  have hne : m <<< shift ≠ 0 := by
    rw [Nat.shiftLeft_eq]
    exact Nat.ne_of_gt (Nat.mul_pos hm (Nat.two_pow_pos shift))
  rw [Nat.log2_eq_iff hne, Nat.shiftLeft_eq, Nat.pow_add, Nat.add_right_comm, Nat.pow_add]
  have hleast := Nat.log2_self_le (Nat.ne_of_gt hm)
  have hmost : m < 2 ^ (m.log2 + 1) := Nat.lt_log2_self
  exact ⟨Nat.mul_le_mul_right _ hleast, Nat.mul_lt_mul_of_pos_right hmost (Nat.two_pow_pos shift)⟩

/-- Enough zeros are put behind a mantissa before it is rounded. -/
theorem isRounding_round (sign : Sign) {m : ℕ} (hm : 0 < m) (e : ℤ) :
    IsRounding (signed sign (m * 2 ^ e)) (numberOf (UnpackedFloat.round .binary64 sign m e)) ∧
      IsCanonical (UnpackedFloat.round .binary64 sign m e) := by
  have htarget : Format.targetExponent .binary64 (totalExponent m e) =
      max ((m.log2 : ℤ) + e - 52) (-1074) := by
    show max ((m.log2 : ℤ) + 1 + e - 53) (-1074) = _
    congr 1
    omega
  unfold UnpackedFloat.round decreaseExponent
  rw [htarget]
  dsimp only
  generalize hshift : (e - max ((m.log2 : ℤ) + e - 52) (-1074)).toNat = shift
  have hlog := log2_shiftLeft hm shift
  have hround := isRounding_roundWithAccuracy (m := m <<< shift) (e := e - shift) sign
    (lies_exact _) (by omega)
  rwa [shiftLeft_mul_two_zpow] at hround

/-- A whole multiple of a power of two is rounded. -/
theorem isRounding_normalize (n e : ℤ) (zeroSign : Sign) :
    IsRounding (n * 2 ^ e) (numberOf (UnpackedFloat.normalize .binary64 n e zeroSign)) ∧
      IsCanonical (UnpackedFloat.normalize .binary64 n e zeroSign) := by
  unfold UnpackedFloat.normalize
  rcases lt_trichotomy n 0 with hn | hn | hn
  · rw [compare_lt_iff_lt.2 hn]
    have hcast : (((-n).toNat : ℕ) : ℚ) = -n := by
      have hnat : (((-n).toNat : ℕ) : ℤ) = -n := by omega
      exact_mod_cast hnat
    have hround := isRounding_round .negative (m := (-n).toNat) (by omega) e
    rwa [hcast, signed, neg_mul, neg_neg] at hround
  · rw [hn, compare_eq_iff_eq.2 rfl, Int.cast_zero, zero_mul]
    exact ⟨(IsCanonical.zero zeroSign).isRounding, .zero zeroSign⟩
  · rw [compare_gt_iff_gt.2 hn]
    have hcast : ((n.toNat : ℕ) : ℚ) = n := by
      have hnat : ((n.toNat : ℕ) : ℤ) = n := by omega
      exact_mod_cast hnat
    have hround := isRounding_round .positive (m := n.toNat) (by omega) e
    rwa [hcast] at hround

/-! ### Sums and differences -/

/-- A mantissa with more zeros behind it stands for the same number. -/
theorem apply_decreaseExponent (sign : Sign) (m : ℕ) {e t : ℤ} (h : t ≤ e) :
    ((sign.apply ((decreaseExponent m e t).1 : ℕ) : ℤ) : ℚ) * 2 ^ t =
      (sign.apply m : ℤ) * 2 ^ e := by
  have hvalue := shiftLeft_mul_two_zpow m (e - t).toNat e
  have hexponent : e - ((e - t).toNat : ℕ) = t := by omega
  rw [hexponent] at hvalue
  cases sign with
  | negative =>
    simp only [Sign.apply, decreaseExponent, Int.cast_neg, Int.cast_natCast, neg_mul, hvalue]
  | positive => simp only [Sign.apply, decreaseExponent, Int.cast_natCast, hvalue]

theorem isRounding_add {a b : UnpackedFloat} (ha : IsCanonical a) (hb : IsCanonical b) :
    IsRounding (numberOf a + numberOf b) (numberOf (a.add .binary64 b)) ∧
      IsCanonical (a.add .binary64 b) := by
  cases ha with
  | zero s =>
    cases hb with
    | zero s' =>
      have hzero : ∃ s'', UnpackedFloat.add .binary64 (.zero s) (.zero s') = .zero s'' := by
        show ∃ s'', (if s == s' then UnpackedFloat.zero s else .zero .positive) = .zero s''
        split
        · exact ⟨s, rfl⟩
        · exact ⟨.positive, rfl⟩
      obtain ⟨s'', hzero⟩ := hzero
      rw [hzero, numberOf_zero, numberOf_zero, numberOf_zero, zero_add]
      exact ⟨(IsCanonical.zero s'').isRounding, .zero s''⟩
    | finite s' hn hb =>
      rw [numberOf_zero, zero_add]
      exact ⟨(IsCanonical.finite s' hn hb).isRounding, .finite s' hn hb⟩
  | @finite s m d hm ha =>
    cases hb with
    | zero s' =>
      rw [numberOf_zero, add_zero]
      exact ⟨(IsCanonical.finite s hm ha).isRounding, .finite s hm ha⟩
    | @finite s' n e hn hb =>
      have hround := isRounding_normalize
        (s.apply ((decreaseExponent m d (min d e)).1 : ℕ) +
          s'.apply ((decreaseExponent n e (min d e)).1 : ℕ)) (min d e) .positive
      rwa [Int.cast_add, add_mul, apply_decreaseExponent s m (min_le_left d e),
        apply_decreaseExponent s' n (min_le_right d e)] at hround

theorem numberOf_neg (a : UnpackedFloat) : numberOf a.neg = -numberOf a := by
  cases a with
  | infinity s => exact neg_zero.symm
  | notANumber => exact neg_zero.symm
  | zero s => exact neg_zero.symm
  | finite s m e hm =>
    cases s with
    | negative =>
      show numberOf (.finite .positive m e hm) = _
      rw [numberOf_positive, numberOf_negative, neg_neg]
    | positive =>
      show numberOf (.finite .negative m e hm) = _
      rw [numberOf_positive, numberOf_negative]

theorem IsCanonical.neg {a : UnpackedFloat} (h : IsCanonical a) : IsCanonical a.neg := by
  cases h with
  | zero s => exact .zero (-s)
  | finite s hm h => exact .finite (-s) hm h

/-- A difference is the sum with the negative. -/
theorem sub_eq_add {a b : UnpackedFloat} (ha : IsCanonical a) (hb : IsCanonical b) :
    a.sub .binary64 b = a.add .binary64 b.neg := by
  cases ha with
  | zero s =>
    cases hb with
    | zero s' => rfl
    | finite s' hn hb => rfl
  | finite s hm ha =>
    cases hb with
    | zero s' => rfl
    | finite s' hn hb =>
      cases s' with
      | negative => simp [UnpackedFloat.sub, UnpackedFloat.add, UnpackedFloat.neg, Sign.apply]
      | positive =>
        simp [UnpackedFloat.sub, UnpackedFloat.add, UnpackedFloat.neg, Sign.apply,
          Int.sub_eq_add_neg]

/-! ### Products and quotients -/

theorem signed_mul (s s' : Sign) (u v : ℚ) : signed (s * s') (u * v) = signed s u * signed s' v := by
  cases s with
  | negative =>
    cases s' with
    | negative => exact (neg_mul_neg u v).symm
    | positive => exact (neg_mul u v).symm
  | positive =>
    cases s' with
    | negative => exact (mul_neg u v).symm
    | positive => rfl

theorem signed_div (s s' : Sign) (u v : ℚ) : signed (s / s') (u / v) = signed s u / signed s' v := by
  cases s with
  | negative =>
    cases s' with
    | negative => exact (neg_div_neg_eq u v).symm
    | positive => exact (neg_div v u).symm
  | positive =>
    cases s' with
    | negative => exact (div_neg u).symm
    | positive => rfl

theorem isRounding_mul {a b : UnpackedFloat} (ha : IsCanonical a) (hb : IsCanonical b) :
    IsRounding (numberOf a * numberOf b) (numberOf (a.mul .binary64 b)) ∧
      IsCanonical (a.mul .binary64 b) := by
  cases ha with
  | zero s =>
    rw [numberOf_zero, zero_mul]
    cases hb with
    | zero s' => exact ⟨(IsCanonical.zero (s * s')).isRounding, .zero _⟩
    | finite s' hn hb => exact ⟨(IsCanonical.zero (s * s')).isRounding, .zero _⟩
  | @finite s m d hm ha =>
    cases hb with
    | zero s' =>
      rw [numberOf_zero, mul_zero]
      exact ⟨(IsCanonical.zero (s * s')).isRounding, .zero _⟩
    | @finite s' n e hn hb =>
      -- One of two subnormal numbers has bits enough, or the exponent is least.
      have hprecise : 52 ≤ (m * n).log2 ∨ d + e ≤ -1074 := by
        rcases ha.normal with hm52 | hd
        · left
          exact (Nat.le_log2 (Nat.ne_of_gt (Nat.mul_pos hm hn))).2
            (Nat.le_trans hm52 (Nat.le_mul_of_pos_right m hn))
        · rcases hb.normal with hn52 | he
          · left
            exact (Nat.le_log2 (Nat.ne_of_gt (Nat.mul_pos hm hn))).2
              (Nat.le_trans hn52 (Nat.le_mul_of_pos_left n hm))
          · right
            omega
      have hround := isRounding_roundWithAccuracy (s * s') (lies_exact _) hprecise
      have hproduct : ((m * n : ℕ) : ℚ) * 2 ^ (d + e) = m * 2 ^ d * (n * 2 ^ e) := by
        rw [zpow_add₀ (by norm_num)]
        push_cast
        ring
      rwa [hproduct, signed_mul, ← numberOf_finite s hm, ← numberOf_finite s' hn] at hround

/-- The remainder of a division says how accurate the quotient is. -/
theorem lies_div (m : ℕ) {n : ℕ} (hn : 0 < n) :
    Lies (m / n) ((m : ℚ) / n) (accuracyOfFraction (m % n) n) := by
  have hpos : (0 : ℚ) < n := by exact_mod_cast hn
  have hdiv : (m : ℚ) = n * (m / n : ℕ) + (m % n : ℕ) := by exact_mod_cast (Nat.div_add_mod m n).symm
  have hquotient : (m : ℚ) / n = (m / n : ℕ) + (m % n : ℕ) / n := by
    rw [div_eq_iff hpos.ne', add_mul, div_mul_cancel₀ _ hpos.ne', mul_comm, ← hdiv]
  have hlt : ((m % n : ℕ) : ℚ) < n := by exact_mod_cast Nat.mod_lt m hn
  rw [hquotient]
  generalize m / n = q at *
  generalize m % n = r at *
  unfold accuracyOfFraction
  by_cases hzero : r = 0
  · rw [if_pos hzero, hzero]
    simp [Lies]
  · have hr : (0 : ℚ) < r / n := div_pos (by exact_mod_cast Nat.pos_of_ne_zero hzero) hpos
    rw [if_neg hzero]
    rcases lt_trichotomy (2 * r) n with h | h | h
    · have hhalf : (r : ℚ) / n < 1 / 2 := by
        have hcast : (2 * r : ℚ) < n := by exact_mod_cast h
        rw [div_lt_div_iff₀ hpos (by norm_num)]
        linarith
      rw [compare_lt_iff_lt.2 h]
      exact ⟨by linarith, by linarith⟩
    · have hhalf : (r : ℚ) / n = 1 / 2 := by
        have hcast : (2 * r : ℚ) = n := by exact_mod_cast h
        rw [div_eq_div_iff hpos.ne' (by norm_num)]
        linarith
      rw [compare_eq_iff_eq.2 h, hhalf]
      exact rfl
    · have hhalf : 1 / 2 < (r : ℚ) / n := by
        have hcast : (n : ℚ) < 2 * r := by exact_mod_cast h
        rw [div_lt_div_iff₀ (by norm_num) hpos]
        linarith
      have hone : (r : ℚ) / n < 1 := (div_lt_one hpos).2 hlt
      rw [compare_gt_iff_gt.2 h]
      exact ⟨by linarith, by linarith⟩

/-- Enough zeros are put behind the first number for 53 bits of the quotient. -/
theorem exists_divCore {m n : ℕ} (hm : 0 < m) (hn : 0 < n) (d e : ℤ) :
    ∃ shift : ℕ, divCore .binary64 m d n e =
        ((m <<< shift) / n, d - e - shift, accuracyOfFraction ((m <<< shift) % n) n) ∧
      (52 ≤ ((m <<< shift) / n).log2 ∨ d - e - shift ≤ -1074) := by
  have htarget : Format.targetExponent .binary64 (totalExponent m d - totalExponent n e) =
      max ((m.log2 : ℤ) + d - (n.log2 + e) - 53) (-1074) := by
    show max ((m.log2 : ℤ) + 1 + d - (n.log2 + 1 + e) - 53) (-1074) = _
    congr 1
    omega
  unfold divCore
  rw [htarget]
  dsimp only
  generalize ht : max ((m.log2 : ℤ) + d - (n.log2 + e) - 53) (-1074) = t
  generalize hshift : (d - e - min (d - e) t).toNat = shift
  have hmin : min (d - e) t = d - e - shift := by omega
  refine ⟨shift, by rw [hmin], ?_⟩
  by_cases hleast : d - e - shift ≤ -1074
  · exact .inr hleast
  · left
    have hlog := log2_shiftLeft hm shift
    have hbits : n.log2 + 53 ≤ (m <<< shift).log2 := by omega
    have hlarge : 2 ^ (n.log2 + 53) ≤ m <<< shift := by
      have hne : m <<< shift ≠ 0 := by
        intro hzero
        rw [hzero, Nat.log2_zero] at hbits
        omega
      exact (Nat.le_log2 hne).1 hbits
    have hdiv : 2 ^ 52 ≤ (m <<< shift) / n := by
      rw [Nat.le_div_iff_mul_le hn]
      calc 2 ^ 52 * n ≤ 2 ^ 52 * 2 ^ (n.log2 + 1) := Nat.mul_le_mul_left _ Nat.lt_log2_self.le
        _ = 2 ^ (n.log2 + 53) := by
            rw [← Nat.pow_add]
            congr 1
            omega
        _ ≤ m <<< shift := hlarge
    have hpos := Nat.lt_of_lt_of_le (Nat.two_pow_pos 52) hdiv
    exact (Nat.le_log2 (Nat.ne_of_gt hpos)).2 hdiv

theorem isRounding_div {a b : UnpackedFloat} (ha : IsCanonical a) (hb : IsCanonical b)
    (hzero : numberOf b ≠ 0) :
    IsRounding (numberOf a / numberOf b) (numberOf (a.div .binary64 b)) ∧
      IsCanonical (a.div .binary64 b) := by
  cases hb with
  | zero s' => exact absurd rfl hzero
  | @finite s' n e hn hb =>
    cases ha with
    | zero s =>
      rw [numberOf_zero, zero_div]
      exact ⟨(IsCanonical.zero (s / s')).isRounding, .zero _⟩
    | @finite s m d hm ha =>
      obtain ⟨shift, hcore, hprecise⟩ := exists_divCore hm hn d e
      have hround := isRounding_roundWithAccuracy (s / s') (lies_div (m <<< shift) hn) hprecise
      have hquotient : ((m <<< shift : ℕ) : ℚ) / n * 2 ^ (d - e - shift) =
          m * 2 ^ d / (n * 2 ^ e) := by
        rw [div_mul_eq_mul_div, shiftLeft_mul_two_zpow, zpow_sub₀ (by norm_num)]
        field_simp
      rw [hquotient, signed_div, ← numberOf_finite s hm, ← numberOf_finite s' hn] at hround
      show IsRounding _ (numberOf (roundWithAccuracy .binary64 (s / s') (divCore .binary64 m d n e).1
          (divCore .binary64 m d n e).2.1 (divCore .binary64 m d n e).2.2)) ∧
        IsCanonical (roundWithAccuracy .binary64 (s / s') (divCore .binary64 m d n e).1
          (divCore .binary64 m d n e).2.1 (divCore .binary64 m d n e).2.2)
      rw [hcore]
      exact hround

/-! ### Doubles -/

/-- Bounds of everyday size are far below the largest double. -/
theorem abs_lt_of_le {z bound : ℚ} (h : |z| ≤ bound) (hbound : bound < 2 ^ (100 : ℤ)) :
    |z| < 2 ^ (1000 : ℤ) :=
  calc |z| ≤ bound := h
    _ < 2 ^ (100 : ℤ) := hbound
    _ ≤ 2 ^ (1000 : ℤ) := zpow_le_zpow_right₀ (by norm_num) (by norm_num)

section

variable {x y : Float} (hx : x.isFinite = true) (hy : y.isFinite = true)
include hx hy

/-- A sum is rounded once. -/
theorem nearest_add (hsmall : |value x + value y| < 2 ^ (1000 : ℤ)) :
    Nearest (value x + value y) (x + y) := by
  obtain ⟨hround, hcanonical⟩ := isRounding_add (isCanonical_unpack hx) (isCanonical_unpack hy)
  rw [← value_eq_numberOf hx, ← value_eq_numberOf hy] at hround
  exact nearest_pack hround hcanonical hsmall

/-- A difference is rounded once. -/
theorem nearest_sub (hsmall : |value x - value y| < 2 ^ (1000 : ℤ)) :
    Nearest (value x - value y) (x - y) := by
  obtain ⟨hround, hcanonical⟩ :=
    isRounding_add (isCanonical_unpack hx) (isCanonical_unpack hy).neg
  rw [← sub_eq_add (isCanonical_unpack hx) (isCanonical_unpack hy)] at hround hcanonical
  rw [numberOf_neg, ← value_eq_numberOf hx, ← value_eq_numberOf hy, ← sub_eq_add_neg] at hround
  exact nearest_pack hround hcanonical hsmall

/-- A product is rounded once. -/
theorem nearest_mul (hsmall : |value x * value y| < 2 ^ (1000 : ℤ)) :
    Nearest (value x * value y) (x * y) := by
  obtain ⟨hround, hcanonical⟩ := isRounding_mul (isCanonical_unpack hx) (isCanonical_unpack hy)
  rw [← value_eq_numberOf hx, ← value_eq_numberOf hy] at hround
  exact nearest_pack hround hcanonical hsmall

/-- A quotient is rounded once. -/
theorem nearest_div (hzero : value y ≠ 0) (hsmall : |value x / value y| < 2 ^ (1000 : ℤ)) :
    Nearest (value x / value y) (x / y) := by
  have hunpacked : numberOf y.toModel.unpack ≠ 0 := by rwa [← value_eq_numberOf hy]
  obtain ⟨hround, hcanonical⟩ :=
    isRounding_div (isCanonical_unpack hx) (isCanonical_unpack hy) hunpacked
  rw [← value_eq_numberOf hx, ← value_eq_numberOf hy] at hround
  exact nearest_pack hround hcanonical hsmall

end

end PlotGrammar.Binary64
