import PlotGrammar.Proofs.Binary64.Bits
import PlotGrammar.Proofs.Decimal.Rounding

/-! # The numbers that doubles stand for

  A finite double stands for a rational number (`value`): its units with its
  sign. Arithmetic takes a double apart into a sign, a mantissa and an exponent
  instead, which stand for the same number (`value_eq_numberOf`) and are the
  only ones for it (`Canonical`). So finite doubles are compared as numbers
  (`lt_iff_value`, `beq_iff_value`).
-/

namespace PlotGrammar.Binary64

open Float.Model Float.Model.UnpackedFloat

/-- The number that a finite double stands for. -/
def value (x : Float) : ℚ := (if negative x then -(units x : ℚ) else units x) / one

theorem value_zero : value 0.0 = 0 := by decide +kernel

/-- The number that a finite double stands for when it is taken apart. -/
def numberOf : UnpackedFloat → ℚ
  | .finite sign mantissa exponent _ => (sign.apply mantissa : ℤ) * 2 ^ exponent
  | _ => 0

/-! ### Mantissas and exponents -/

/-- The mantissa has 53 bits, or fewer of the least exponent. -/
structure Canonical (mantissa : ℕ) (exponent : ℤ) : Prop where
  lt : mantissa < 2 ^ 53
  least : -1074 ≤ exponent
  normal : 2 ^ 52 ≤ mantissa ∨ exponent = -1074

/-- A zero, or a number with a canonical mantissa. -/
inductive IsCanonical : UnpackedFloat → Prop where
  | zero (sign : Sign) : IsCanonical (.zero sign)
  | finite (sign : Sign) {mantissa : ℕ} {exponent : ℤ} (hpos : 0 < mantissa)
      (h : Canonical mantissa exponent) : IsCanonical (.finite sign mantissa exponent hpos)

theorem two_zpow_pos (e : ℤ) : (0 : ℚ) < 2 ^ e := zpow_pos (by norm_num) e

/-- A larger exponent outweighs every mantissa. -/
theorem Canonical.lt_of_exponent_lt {m n : ℕ} {d e : ℤ} (hm : Canonical m d) (hn : Canonical n e)
    (h : d < e) : (m : ℚ) * 2 ^ d < n * 2 ^ e := by
  have hnormal : 2 ^ 52 ≤ n := by
    rcases hn.normal with hnormal | hleast
    · exact hnormal
    · have := hm.least
      omega
  have hmost : (m : ℚ) < 2 ^ 53 := by exact_mod_cast hm.lt
  have hleast : (2 : ℚ) ^ 52 ≤ n := by exact_mod_cast hnormal
  have hstep : (2 : ℚ) ^ (d + 1) ≤ 2 ^ e := zpow_le_zpow_right₀ (by norm_num) h
  calc (m : ℚ) * 2 ^ d < 2 ^ 53 * 2 ^ d := mul_lt_mul_of_pos_right hmost (two_zpow_pos d)
    _ = 2 ^ 52 * 2 ^ (d + 1) := by
        rw [zpow_add_one₀ (by norm_num)]
        ring
    _ ≤ 2 ^ 52 * 2 ^ e := mul_le_mul_of_nonneg_left hstep (by norm_num)
    _ ≤ n * 2 ^ e := mul_le_mul_of_nonneg_right hleast (two_zpow_pos e).le

/-- Positive numbers are compared by their exponents first. -/
theorem Canonical.compare_eq {m n : ℕ} {d e : ℤ} (hm : Canonical m d) (hn : Canonical n e) :
    (compare d e).then (compare m n) = compare ((m : ℚ) * 2 ^ d) (n * 2 ^ e) := by
  rcases lt_trichotomy d e with h | h | h
  · rw [compare_lt_iff_lt.2 h, compare_lt_iff_lt.2 (hm.lt_of_exponent_lt hn h)]
    rfl
  · subst h
    rw [compare_eq_iff_eq.2 rfl, Ordering.eq_then]
    rcases lt_trichotomy m n with h | h | h
    · have hlt : (m : ℚ) * 2 ^ d < n * 2 ^ d :=
        mul_lt_mul_of_pos_right (by exact_mod_cast h) (two_zpow_pos d)
      rw [compare_lt_iff_lt.2 h, compare_lt_iff_lt.2 hlt]
    · rw [compare_eq_iff_eq.2 h, h, compare_eq_iff_eq.2 rfl]
    · have hlt : (n : ℚ) * 2 ^ d < m * 2 ^ d :=
        mul_lt_mul_of_pos_right (by exact_mod_cast h) (two_zpow_pos d)
      rw [compare_gt_iff_gt.2 h, compare_gt_iff_gt.2 hlt]
  · rw [compare_gt_iff_gt.2 h, compare_gt_iff_gt.2 (hn.lt_of_exponent_lt hm h)]
    rfl

/-! ### Comparing -/

theorem compare_neg (p q : ℚ) : compare (-p) (-q) = compare q p := by
  rcases lt_trichotomy p q with h | h | h
  · rw [compare_gt_iff_gt.2 h, compare_gt_iff_gt.2 (neg_lt_neg h)]
  · rw [h, compare_eq_iff_eq.2 rfl, compare_eq_iff_eq.2 rfl]
  · rw [compare_lt_iff_lt.2 h, compare_lt_iff_lt.2 (neg_lt_neg h)]

@[simp]
theorem numberOf_zero (sign : Sign) : numberOf (.zero sign) = 0 := rfl

@[simp]
theorem numberOf_positive {m : ℕ} {e : ℤ} (hm : 0 < m) :
    numberOf (.finite .positive m e hm) = m * 2 ^ e := by
  simp [numberOf, Sign.apply]

@[simp]
theorem numberOf_negative {m : ℕ} {e : ℤ} (hm : 0 < m) :
    numberOf (.finite .negative m e hm) = -(m * 2 ^ e) := by
  simp [numberOf, Sign.apply]

theorem mul_two_zpow_pos {m : ℕ} (hm : 0 < m) (e : ℤ) : (0 : ℚ) < m * 2 ^ e :=
  mul_pos (by exact_mod_cast hm) (two_zpow_pos e)

/-- Doubles taken apart are compared as the numbers they stand for. -/
theorem IsCanonical.compare_eq {a b : UnpackedFloat} (ha : IsCanonical a) (hb : IsCanonical b) :
    a.compare b = some (compare (numberOf a) (numberOf b)) := by
  cases ha with
  | zero s =>
    cases hb with
    | zero s' => simp [UnpackedFloat.compare]
    | @finite s' n e hn hb =>
      have hpos := mul_two_zpow_pos hn e
      cases s' with
      | positive => simp [UnpackedFloat.compare, compare_lt_iff_lt.2 hpos]
      | negative => simp [UnpackedFloat.compare, compare_gt_iff_gt.2 (neg_lt_zero.2 hpos)]
  | @finite s m d hm ha =>
    have hpos := mul_two_zpow_pos hm d
    cases hb with
    | zero s' =>
      cases s with
      | positive => simp [UnpackedFloat.compare, compare_gt_iff_gt.2 hpos]
      | negative => simp [UnpackedFloat.compare, compare_lt_iff_lt.2 (neg_lt_zero.2 hpos)]
    | @finite s' n e hn hb =>
      have hpos' := mul_two_zpow_pos hn e
      cases s with
      | positive =>
        cases s' with
        | positive => simp [UnpackedFloat.compare, ha.compare_eq hb]
        | negative =>
          have hlt : -((n : ℚ) * 2 ^ e) < m * 2 ^ d := by linarith
          simp [UnpackedFloat.compare, compare_gt_iff_gt.2 hlt]
      | negative =>
        cases s' with
        | positive =>
          have hlt : -((m : ℚ) * 2 ^ d) < n * 2 ^ e := by linarith
          simp [UnpackedFloat.compare, compare_lt_iff_lt.2 hlt]
        | negative =>
          rw [numberOf_negative, numberOf_negative, compare_neg]
          simp only [UnpackedFloat.compare]
          rw [ha.compare_eq hb, ← Std.OrientedOrd.eq_swap]

/-! ### Taking doubles apart -/

theorem ofBitVec_unpackSign (x : Float) :
    Sign.ofBitVec (@unpackSign .binary64 x.toBits.toBitVec) =
      if negative x then .negative else .positive := by
  have hsign : (@unpackSign .binary64 x.toBits.toBitVec).toNat = x.toBits.toNat / 2 ^ 63 % 2 := by
    rw [unpackSign_def, BitVec.extractLsb'_toNat, Nat.shiftRight_eq_div_pow,
      UInt64.toNat_toBitVec]
    rfl
  have hlt := x.toBits.toNat_lt
  have hzero : @unpackSign .binary64 x.toBits.toBitVec = 0#1 ↔ ¬ Nat.pow 2 63 ≤ x.toBits.toNat := by
    rw [← BitVec.toNat_inj, hsign, BitVec.toNat_ofNat, Nat.pow_eq]
    omega
  simp only [Sign.ofBitVec, negative, hzero, decide_eq_true_eq, ite_not]

theorem toNat_unpackMantissa (bits : BitVec 64) :
    (@unpackMantissa .binary64 bits).toNat = bits.toNat % 2 ^ 52 := by
  rw [unpackMantissa_def, BitVec.extractLsb'_toNat, Nat.shiftRight_eq_div_pow]
  simp

/-- Size bits are an exponent and a mantissa. -/
theorem sizeBits_eq (x : Float) :
    sizeBits x = (@unpackExponent .binary64 x.toBits.toBitVec).toNat * 2 ^ 52 +
      (@unpackMantissa .binary64 x.toBits.toBitVec).toNat := by
  have hlt := x.toBits.toNat_lt
  rw [unpackExponent_eq, toNat_unpackMantissa, UInt64.toNat_toBitVec, sizeBits, Nat.pow_eq]
  omega

theorem one_eq_zpow : (one : ℚ) = 2 ^ (1074 : ℤ) := by
  rw [one_eq, Nat.cast_pow, Nat.cast_ofNat]
  exact (zpow_natCast 2 1074).symm

theorem finite_congr (sign : Sign) {m n : ℕ} {d e : ℤ} (hm : 0 < m) (hn : 0 < n) (hmn : m = n)
    (hde : d = e) : UnpackedFloat.finite sign m d hm = .finite sign n e hn := by
  subst hmn hde
  rfl

/-- Without exponent bits the mantissa is taken as it is. -/
theorem unpack_subnormal (sign : Sign) {mantissa : BitVec 52} (hpos : 0 < mantissa.toNat) :
    UnpackedFloat.unpack .binary64 (packComponents .binary64 sign 0#11 mantissa) =
      .finite sign mantissa.toNat (-1074) hpos := by
  have hzero : mantissa ≠ 0#52 := by
    rintro rfl
    exact absurd hpos (by decide)
  unfold UnpackedFloat.unpack
  simp only [unpackMantissa_packComponents, unpackExponent_packComponents,
    unpackSign_packComponents, Sign.ofBitVec_toBitVec]
  rw [if_neg (by decide), if_pos trivial, dif_neg hzero]
  exact finite_congr sign _ _ rfl rfl

/-- With exponent bits the mantissa gets its leading one back. -/
theorem unpack_normal (sign : Sign) {exponent : BitVec 11} (mantissa : BitVec 52)
    (hleast : exponent.toNat ≠ 0) (hmost : exponent.toNat ≠ 2047)
    (hpos : 0 < 2 ^ 52 + mantissa.toNat) :
    UnpackedFloat.unpack .binary64 (packComponents .binary64 sign exponent mantissa) =
      .finite sign (2 ^ 52 + mantissa.toNat) (exponent.toNat - 1075) hpos := by
  have hzero : exponent ≠ 0#11 := by
    rintro rfl
    exact hleast rfl
  have hones : exponent ≠ -1#11 := by
    rintro rfl
    exact hmost rfl
  have hmantissa : (1#1 ++ mantissa).toNat = 2 ^ 52 + mantissa.toNat := by
    rw [BitVec.toNat_append, ← Nat.shiftLeft_add_eq_or_of_lt mantissa.isLt]
    rfl
  unfold UnpackedFloat.unpack
  simp only [unpackMantissa_packComponents, unpackExponent_packComponents,
    unpackSign_packComponents, Sign.ofBitVec_toBitVec]
  rw [if_neg hones, if_neg hzero]
  exact finite_congr sign _ _ hmantissa rfl

/-- A finite double is taken apart into its sign and its units. -/
theorem unpack_cases {x : Float} (h : x.isFinite = true) :
    (units x = 0 ∧ x.toModel.unpack = .zero (if negative x then .negative else .positive)) ∨
      ∃ m e, ∃ hm : 0 < m,
        x.toModel.unpack = .finite (if negative x then .negative else .positive) m e hm ∧
          Canonical m e ∧ e ≤ 971 ∧ (units x : ℚ) / one = m * 2 ^ e := by
  have hexponent := (isFinite_unpack_iff x.toBits.toBitVec).1 h
  have hsize := sizeBits_eq x
  have hunpack : x.toModel.unpack = UnpackedFloat.unpack .binary64 x.toBits.toBitVec := rfl
  rw [hunpack, ← @packComponents_unpackSign_unpackExponent_unpackMantissa .binary64 x.toBits.toBitVec,
    ofBitVec_unpackSign]
  generalize (if negative x then Sign.negative else .positive) = sign
  generalize @unpackMantissa .binary64 x.toBits.toBitVec = M at *
  generalize @unpackExponent .binary64 x.toBits.toBitVec = E at *
  have hM : M.toNat < 2 ^ 52 := M.isLt
  have hE : E.toNat < 2 ^ 11 := E.isLt
  by_cases hzero : E.toNat = 0
  · have hE0 : E = 0#11 := BitVec.eq_of_toNat_eq hzero
    have hunits : units x = M.toNat := by
      rw [units, hsize, hzero, Nat.zero_mul, Nat.zero_add, unitsOfBits,
        Nat.pow_eq, if_pos hM]
    by_cases hM0 : M.toNat = 0
    · have hM0' : M = 0#52 := BitVec.eq_of_toNat_eq hM0
      refine .inl ⟨hunits.trans hM0, ?_⟩
      rw [hE0, hM0']
      exact unpack_packedZero
    · refine .inr ⟨M.toNat, -1074, Nat.pos_of_ne_zero hM0, ?_, ⟨by omega, by omega, .inr rfl⟩,
        by omega, ?_⟩
      · rw [hE0]
        exact unpack_subnormal sign (Nat.pos_of_ne_zero hM0)
      · rw [hunits, one_eq_zpow, zpow_neg, div_eq_mul_inv]
  · have hunits : units x = (2 ^ 52 + M.toNat) * 2 ^ (E.toNat - 1) := by
      have hdiv : (E.toNat * 2 ^ 52 + M.toNat) / 2 ^ 52 = E.toNat := by omega
      have hmod : (E.toNat * 2 ^ 52 + M.toNat) % 2 ^ 52 = M.toNat := by omega
      rw [units, hsize, unitsOfBits]
      simp only [Nat.pow_eq]
      rw [if_neg (by omega), hdiv, hmod]
    refine .inr ⟨2 ^ 52 + M.toNat, E.toNat - 1075, by omega, ?_, ⟨by omega, by omega, .inl (by omega)⟩,
      by omega, ?_⟩
    · exact unpack_normal sign M hzero hexponent _
    · have hshift : ((2 ^ (E.toNat - 1) : ℕ) : ℚ) = 2 ^ ((E.toNat : ℤ) - 1) := by
        rw [Nat.cast_pow, Nat.cast_ofNat, ← zpow_natCast]
        congr 1
        omega
      rw [hunits, Nat.cast_mul, hshift, one_eq_zpow, mul_div_assoc, ← zpow_sub₀ (by norm_num)]
      congr 2
      omega

theorem isCanonical_unpack {x : Float} (h : x.isFinite = true) : IsCanonical x.toModel.unpack := by
  rcases unpack_cases h with ⟨-, hzero⟩ | ⟨m, e, hm, hfinite, hcanonical, -, -⟩
  · rw [hzero]
    exact .zero _
  · rw [hfinite]
    exact .finite _ hm hcanonical

/-- A double stands for the same number when it is taken apart. -/
theorem value_eq_numberOf {x : Float} (h : x.isFinite = true) :
    value x = numberOf x.toModel.unpack := by
  rcases unpack_cases h with ⟨hunits, hzero⟩ | ⟨m, e, hm, hfinite, -, -, hunits⟩
  · rw [hzero, numberOf_zero, value, hunits, Nat.cast_zero, neg_zero, ite_self, zero_div]
  · rw [hfinite, value]
    by_cases hnegative : negative x = true
    · rw [if_pos hnegative, if_pos hnegative, numberOf_negative, neg_div, hunits]
    · rw [if_neg hnegative, if_neg hnegative, numberOf_positive, hunits]

section

variable {x y : Float} (hx : x.isFinite = true) (hy : y.isFinite = true)
include hx hy

theorem compare_unpack :
    x.toModel.unpack.compare y.toModel.unpack = some (compare (value x) (value y)) := by
  rw [value_eq_numberOf hx, value_eq_numberOf hy]
  exact (isCanonical_unpack hx).compare_eq (isCanonical_unpack hy)

theorem lt_iff_value : x < y ↔ value x < value y := by
  have hlt : x < y ↔ x.toModel.unpack.lt y.toModel.unpack = true := decide_eq_true_iff
  rw [hlt, UnpackedFloat.lt, compare_unpack hx hy, beq_iff_eq, Option.some_inj, compare_lt_iff_lt]

theorem beq_iff_value : (x == y) = true ↔ value x = value y := by
  show x.toModel.unpack.beq y.toModel.unpack = true ↔ _
  rw [UnpackedFloat.beq, compare_unpack hx hy, beq_iff_eq, Option.some_inj, compare_eq_iff_eq]

end

/-! ### Numbers and bits -/

/-- Size bits that stand for the same units are the same. -/
theorem unitsOfBits_inj {bits bits' : ℕ} (h : unitsOfBits bits = unitsOfBits bits') :
    bits = bits' := by
  rw [← nearestBits_unitsOfBits .toEven bits, h, nearestBits_unitsOfBits]

theorem abs_value (x : Float) : |value x| = units x / one := by
  have hnonneg : (0 : ℚ) ≤ units x / one := div_nonneg (Nat.cast_nonneg _) (Nat.cast_nonneg _)
  rw [value]
  split
  · rw [neg_div, abs_neg, abs_of_nonneg hnonneg]
  · exact abs_of_nonneg hnonneg

theorem one_cast_pos : (0 : ℚ) < one := by exact_mod_cast one_pos

/-- Bounds of doubles and of their units. -/
theorem abs_value_lt_iff (x : Float) (n : ℕ) : |value x| < n ↔ units x < n * one := by
  have hpos := one_cast_pos
  rw [abs_value]
  generalize one = scale at *
  rw [div_lt_iff₀ hpos]
  norm_cast

theorem negative_iff {x : Float} (h : value x ≠ 0) : negative x = true ↔ value x < 0 := by
  have hpos : (0 : ℚ) < units x / one := by
    rw [← abs_value]
    exact abs_pos.2 h
  rw [value]
  by_cases hsign : negative x = true
  · rw [if_pos hsign, neg_div]
    exact iff_of_true hsign (neg_lt_zero.2 hpos)
  · rw [if_neg hsign]
    exact iff_of_false hsign (not_lt.2 hpos.le)

/-- Only the two zeros are equal without being the same. -/
theorem eq_of_value_eq {x y : Float} (h : value x = value y) (hzero : value x ≠ 0) : x = y := by
  have hne := one_cast_pos.ne'
  have hsize : sizeBits x = sizeBits y := by
    apply unitsOfBits_inj
    have habs : (units x : ℚ) / one = units y / one := by rw [← abs_value, ← abs_value, h]
    rw [div_left_inj' hne] at habs
    exact_mod_cast habs
  have hsign : negative x = negative y := by
    rw [Bool.eq_iff_iff, negative_iff hzero, negative_iff (h ▸ hzero), h]
  rw [← ofSizeBits_sizeBits x, ← ofSizeBits_sizeBits y, hsize, hsign]

/-- Size bits from those of infinity on stand for `2^1024` or more. -/
theorem le_unitsOfBits {bits : ℕ} (h : infinityBits ≤ bits) :
    2 ^ (1024 : ℤ) * (one : ℚ) ≤ unitsOfBits bits := by
  simp only [infinityBits, Nat.pow_eq] at h
  have hlarge : ¬ bits < 2 ^ 52 := by omega
  have hunits : 2 ^ 52 * 2 ^ (bits / 2 ^ 52 - 1) ≤ unitsOfBits bits := by
    rw [unitsOfBits]
    simp only [Nat.pow_eq]
    rw [if_neg hlarge]
    exact Nat.mul_le_mul_right _ (Nat.le_add_right _ _)
  have hcast : ((2 ^ 52 * 2 ^ (bits / 2 ^ 52 - 1) : ℕ) : ℚ) ≤ unitsOfBits bits :=
    Nat.cast_le.2 hunits
  rw [Nat.cast_mul, Nat.cast_pow, Nat.cast_pow, Nat.cast_ofNat, ← zpow_natCast, ← zpow_natCast,
    ← zpow_add₀ (by norm_num)] at hcast
  rw [one_eq_zpow, ← zpow_add₀ (by norm_num)]
  exact (zpow_le_zpow_right₀ (by norm_num) (by omega)).trans hcast

/-- What stands for less than `2^1024` is not an infinity or NaN. -/
theorem isFinite_of_abs_value_lt {x : Float} (h : |value x| < 2 ^ (1024 : ℤ)) :
    x.isFinite = true := by
  have hbits : sizeBits x < infinityBits := by
    by_contra hlarge
    rw [abs_value, div_lt_iff₀ one_cast_pos] at h
    exact absurd h (not_lt.2 (le_unitsOfBits (Nat.not_lt.1 hlarge)))
  rw [← ofSizeBits_sizeBits x]
  exact isFinite_ofSizeBits (negative x) hbits

end PlotGrammar.Binary64
