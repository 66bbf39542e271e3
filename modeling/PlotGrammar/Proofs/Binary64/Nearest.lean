import PlotGrammar.Proofs.Binary64.Values
import PlotGrammar.Proofs.Binary64.Whole

/-! # The nearest double

  Each operation on doubles finds the number exactly and rounds it once. A
  rounded number is a multiple of a power of two, off by at most half of it,
  and the number has 53 bits of that power or the power is the least one
  (`IsRounding`). So the error of an operation is known from the size of the
  exact number (`IsRounding.error`), and a number that a double stands for is
  not changed (`IsRounding.eq`).

  The exact number is carried through the shifts of its mantissa by what the
  accuracy says about it (`Lies`).
-/

namespace PlotGrammar.Binary64

open Float.Model Float.Model.UnpackedFloat

/-! ### What is cut off -/

/-- The mantissa is the whole part of the number, and the accuracy compares
    what is cut off with a half. -/
def Lies (mantissa : ℕ) (u : ℚ) : Accuracy → Prop
  | .exact => u = mantissa
  | .inexact .lt => mantissa < u ∧ u < mantissa + 1 / 2
  | .inexact .eq => u = mantissa + 1 / 2
  | .inexact .gt => mantissa + 1 / 2 < u ∧ u < mantissa + 1

theorem lies_exact (m : ℕ) : Lies m m .exact := rfl

theorem Lies.le {m : ℕ} {u : ℚ} {accuracy : Accuracy} (h : Lies m u accuracy) : (m : ℚ) ≤ u := by
  match accuracy with
  | .exact => exact h.ge
  | .inexact .lt => exact h.1.le
  | .inexact .eq =>
    simp only [Lies] at h
    linarith
  | .inexact .gt =>
    have := h.1
    linarith

theorem lies_ofMantissaAndAccuracy {m : ℕ} {u : ℚ} {accuracy : Accuracy} (h : Lies m u accuracy) :
    Lies (ExtendedMantissa.ofMantissaAndAccuracy m accuracy).mantissa u
      (ExtendedMantissa.ofMantissaAndAccuracy m accuracy).accuracy := by
  match accuracy with
  | .exact => exact h
  | .inexact .lt => exact h
  | .inexact .eq => exact h
  | .inexact .gt => exact h

/-- Halving moves the last bit of the mantissa into what is cut off. -/
theorem lies_shiftRightOne {em : ExtendedMantissa} {u : ℚ} (h : Lies em.mantissa u em.accuracy) :
    Lies em.shiftRightOne.mantissa (u / 2) em.shiftRightOne.accuracy := by
  obtain ⟨m, roundBit, stickyBit⟩ := em
  obtain ⟨half, rfl | rfl⟩ := Nat.even_or_odd' m
  · have hdiv : 2 * half / 2 = half := by omega
    cases roundBit <;> cases stickyBit <;>
      simp [ExtendedMantissa.shiftRightOne, ExtendedMantissa.accuracy, Lies, hdiv] at h ⊢ <;> grind
  · have hdiv : (2 * half + 1) / 2 = half := by omega
    have hmod : (2 * half + 1) % 2 = 1 := by omega
    cases roundBit <;> cases stickyBit <;>
      simp [ExtendedMantissa.shiftRightOne, ExtendedMantissa.accuracy, Lies, hdiv, hmod] at h ⊢ <;>
      grind

theorem lies_shiftRight {em : ExtendedMantissa} {u : ℚ} (h : Lies em.mantissa u em.accuracy)
    (shift : ℕ) : Lies (em >>> shift).mantissa (u / 2 ^ shift) (em >>> shift).accuracy := by
  show Lies (Nat.repeat ExtendedMantissa.shiftRightOne shift em).mantissa (u / 2 ^ shift)
    (Nat.repeat ExtendedMantissa.shiftRightOne shift em).accuracy
  induction shift with
  | zero => simpa [Nat.repeat] using h
  | succ shift ih =>
    rw [pow_succ, ← div_div]
    exact lies_shiftRightOne ih

/-- A rounded mantissa is off by at most a half. -/
theorem abs_roundedMantissa_sub_le {em : ExtendedMantissa} {u : ℚ}
    (h : Lies em.mantissa u em.accuracy) : |(em.roundedMantissa : ℚ) - u| ≤ 1 / 2 := by
  rw [ExtendedMantissa.roundedMantissa]
  generalize em.accuracy = accuracy at h ⊢
  match accuracy with
  | .exact =>
    simp only [Lies] at h
    simp [Accuracy.roundToNearestEven, h]
  | .inexact .lt =>
    obtain ⟨hleast, hmost⟩ := h
    rw [Accuracy.roundToNearestEven, abs_le]
    constructor <;> linarith
  | .inexact .eq =>
    simp only [Lies] at h
    rw [Accuracy.roundToNearestEven, abs_le]
    rcases Nat.mod_two_eq_zero_or_one em.mantissa with hmod | hmod
    · rw [hmod, Nat.add_zero]
      constructor <;> linarith
    · rw [hmod, Nat.cast_add, Nat.cast_one]
      constructor <;> linarith
  | .inexact .gt =>
    obtain ⟨hleast, hmost⟩ := h
    rw [Accuracy.roundToNearestEven, Nat.cast_add, Nat.cast_one, abs_le]
    constructor <;> linarith

theorem le_roundedMantissa (em : ExtendedMantissa) : em.mantissa ≤ em.roundedMantissa := by
  unfold ExtendedMantissa.roundedMantissa Accuracy.roundToNearestEven
  split
  · omega
  · omega
  · omega
  · omega

/-! ### Rounded numbers -/

/-- The number `z` is rounded to `v`, a multiple of a power of two that is at
    most `2^-52` of it or the least one. -/
def IsRounding (z v : ℚ) : Prop :=
  ∃ t r : ℤ, -1074 ≤ t ∧ (t = -1074 ∨ 2 ^ (t + 52) ≤ |z|) ∧ v = r * 2 ^ t ∧ |v - z| ≤ 2 ^ (t - 1)

theorem IsRounding.neg {z v : ℚ} (h : IsRounding z v) : IsRounding (-z) (-v) := by
  obtain ⟨t, r, hleast, hprecise, hmultiple, herror⟩ := h
  refine ⟨t, -r, hleast, by rwa [abs_neg], ?_, ?_⟩
  · rw [hmultiple, Int.cast_neg, neg_mul]
  · rwa [neg_sub_neg, abs_sub_comm]

/-- Rounding does not change the sign, and doubles a number at most. -/
theorem IsRounding.bounds {z v : ℚ} (h : IsRounding z v) (hz : 0 ≤ z) : 0 ≤ v ∧ v ≤ 2 * z := by
  obtain ⟨t, r, -, -, hmultiple, herror⟩ := h
  have hpos := two_zpow_pos t
  rw [zpow_sub_one₀ (by norm_num), abs_le] at herror
  have hleast : (-1 : ℚ) < r := by
    have hlt : -1 * (2 : ℚ) ^ t < r * 2 ^ t := by linarith
    exact lt_of_mul_lt_mul_right hlt hpos.le
  have hnonneg : 0 ≤ r := by
    have hcast : -1 < r := by exact_mod_cast hleast
    omega
  rcases hnonneg.lt_or_eq with hr | hr
  · -- One multiple is more than the error, so the number is not much smaller.
    have hone : (1 : ℚ) ≤ r := by exact_mod_cast hr
    have hmul := mul_le_mul_of_nonneg_right hone hpos.le
    constructor <;> linarith
  · rw [← hr, Int.cast_zero, zero_mul] at hmultiple
    constructor <;> linarith

/-- The error is at most a half of the last of 53 bits. -/
theorem IsRounding.error {z v : ℚ} (h : IsRounding z v) {k : ℤ} (hk : -1021 ≤ k)
    (hz : |z| < 2 ^ k) : |v - z| ≤ 2 ^ (k - 54) := by
  obtain ⟨t, r, -, hprecise, -, herror⟩ := h
  have ht : t - 1 ≤ k - 54 := by
    rcases hprecise with rfl | hprecise
    · omega
    · have hlt := (zpow_lt_zpow_iff_right₀ (by norm_num : (1 : ℚ) < 2)).1 (hprecise.trans_lt hz)
      omega
  exact herror.trans (zpow_le_zpow_right₀ (by norm_num) ht)

/-- The error is known from the rounded number as well. -/
theorem IsRounding.error_of_rounded {z v : ℚ} (h : IsRounding z v) {k : ℤ} (hk : -1021 ≤ k)
    (hv : |v| < 2 ^ k) : |v - z| ≤ 2 ^ (k - 54) := by
  obtain ⟨t, r, -, hprecise, hmultiple, herror⟩ := h
  have ht : t - 1 ≤ k - 54 := by
    rcases hprecise with rfl | hprecise
    · omega
    · -- A multiple that is less than half of it below `2^52` of them is not below.
      have hsize : |v| = |r| * 2 ^ t := by
        rw [hmultiple, abs_mul, abs_of_pos (two_zpow_pos t), Int.cast_abs]
      have hlarge : (2 ^ 52 - 1 / 2) * 2 ^ t ≤ |v| := by
        have htriangle := abs_sub_abs_le_abs_sub z v
        rw [abs_sub_comm, zpow_sub_one₀ (by norm_num)] at herror
        rw [zpow_add₀ (by norm_num)] at hprecise
        have := two_zpow_pos t
        norm_num at hprecise ⊢
        linarith
      have hleast : 2 ^ 52 ≤ |r| := by
        rw [hsize] at hlarge
        have hcast := le_of_mul_le_mul_right hlarge (two_zpow_pos t)
        have hlt : ((2 ^ 52 - 1 : ℤ) : ℚ) < (|r| : ℤ) := by
          push_cast
          push_cast at hcast
          linarith
        have := Int.cast_lt.1 hlt
        omega
      have hpower : (2 : ℚ) ^ (52 + t) < 2 ^ k := by
        have hcast : (2 : ℚ) ^ 52 ≤ |r| := by exact_mod_cast hleast
        rw [zpow_add₀ (by norm_num)]
        apply lt_of_le_of_lt _ hv
        rw [hsize]
        exact mul_le_mul_of_nonneg_right (by exact_mod_cast hcast) (two_zpow_pos t).le
      have hlt := (zpow_lt_zpow_iff_right₀ (by norm_num : (1 : ℚ) < 2)).1 hpower
      omega
  exact herror.trans (zpow_le_zpow_right₀ (by norm_num) ht)

/-- What has 53 bits is not changed. -/
theorem IsRounding.eq {z v : ℚ} (h : IsRounding z v) {a j : ℤ} (ha : |a| < 2 ^ 53)
    (hj : -1074 ≤ j) (hz : z = a * 2 ^ j) : v = z := by
  obtain ⟨t, r, -, hprecise, hmultiple, herror⟩ := h
  have htj : t ≤ j := by
    rcases hprecise with rfl | hprecise
    · exact hj
    · have hsize : |z| < 2 ^ (53 + j) := by
        rw [hz, abs_mul, abs_of_pos (two_zpow_pos j), zpow_add₀ (by norm_num)]
        exact mul_lt_mul_of_pos_right (by exact_mod_cast ha) (two_zpow_pos j)
      have hlt := (zpow_lt_zpow_iff_right₀ (by norm_num : (1 : ℚ) < 2)).1 (hprecise.trans_lt hsize)
      omega
  -- Both are multiples of the same power, less than one of it apart.
  have hmultiple' : z = (a * 2 ^ (j - t).toNat : ℤ) * 2 ^ t := by
    rw [hz, Int.cast_mul, Int.cast_pow, Int.cast_ofNat, mul_assoc, ← zpow_natCast,
      ← zpow_add₀ (by norm_num)]
    congr 2
    omega
  have hclose : |((r - a * 2 ^ (j - t).toNat : ℤ) : ℚ)| < 1 := by
    rw [hmultiple, hmultiple', ← sub_mul, abs_mul, abs_of_pos (two_zpow_pos t),
      zpow_sub_one₀ (by norm_num), mul_comm ((2 : ℚ) ^ t)] at herror
    have hhalf := le_of_mul_le_mul_right herror (two_zpow_pos t)
    rw [Int.cast_sub]
    exact hhalf.trans_lt (by norm_num)
  have hequal : r = a * 2 ^ (j - t).toNat := by
    have hzero : r - a * 2 ^ (j - t).toNat = 0 := Int.abs_lt_one_iff.1 (by exact_mod_cast hclose)
    linarith
  rw [hmultiple, hmultiple', hequal]

theorem Canonical.isRounding {m : ℕ} {e : ℤ} (h : Canonical m e) :
    IsRounding (m * 2 ^ e) (m * 2 ^ e) := by
  refine ⟨e, m, h.least, ?_, by rw [Int.cast_natCast], ?_⟩
  · rcases h.normal with hnormal | hleast
    · right
      have hnonneg : (0 : ℚ) ≤ m * 2 ^ e := mul_nonneg (Nat.cast_nonneg m) (two_zpow_pos e).le
      rw [abs_of_nonneg hnonneg, zpow_add₀ (by norm_num), mul_comm]
      exact mul_le_mul_of_nonneg_right (by exact_mod_cast hnormal) (two_zpow_pos e).le
    · exact .inl hleast
  · rw [sub_self, abs_zero]
    exact (two_zpow_pos _).le

/-- A number with a sign. -/
def signed : Sign → ℚ → ℚ
  | .negative, u => -u
  | .positive, u => u

theorem numberOf_finite (sign : Sign) {m : ℕ} {e : ℤ} (hm : 0 < m) :
    numberOf (.finite sign m e hm) = signed sign (m * 2 ^ e) := by
  cases sign with
  | negative => exact numberOf_negative hm
  | positive => exact numberOf_positive hm

theorem IsRounding.signed {z v : ℚ} (h : IsRounding z v) (sign : Sign) :
    IsRounding (signed sign z) (signed sign v) := by
  cases sign with
  | negative => exact h.neg
  | positive => exact h

theorem IsCanonical.isRounding {a : UnpackedFloat} (h : IsCanonical a) :
    IsRounding (numberOf a) (numberOf a) := by
  cases h with
  | zero sign =>
    have hzero : Canonical 0 (-1074) := ⟨by norm_num, le_refl _, .inr rfl⟩
    simpa using hzero.isRounding
  | finite sign hm h =>
    rw [numberOf_finite]
    exact h.isRounding.signed sign

/-! ### Shifting and rounding -/

theorem shiftToTargetExponent_eq (m : ℕ) (e : ℤ) (accuracy : Accuracy) :
    shiftToTargetExponent .binary64 m e accuracy =
      (ExtendedMantissa.ofMantissaAndAccuracy m accuracy >>>
          (max ((m.log2 : ℤ) + e - 52) (-1074) - e).toNat,
        e + (max ((m.log2 : ℤ) + e - 52) (-1074) - e).toNat) := by
  have htarget : Format.targetExponent .binary64 (totalExponent m e) =
      max ((m.log2 : ℤ) + e - 52) (-1074) := by
    show max ((m.log2 : ℤ) + 1 + e - 53) (-1074) = _
    congr 1
    omega
  rw [shiftToTargetExponent, htarget, shiftToExponent]

/-- A mantissa that has its place is not moved. -/
theorem shiftToTargetExponent_of_lt {m : ℕ} {e : ℤ} (hm : m < 2 ^ 53) (he : -1074 ≤ e) :
    shiftToTargetExponent .binary64 m e .exact = (⟨m, false, false⟩, e) := by
  have hlog := log2_lt_of_lt (by decide) hm
  have hshift : (max ((m.log2 : ℤ) + e - 52) (-1074) - e).toNat = 0 := by omega
  rw [shiftToTargetExponent_eq, hshift]
  simp [HShiftRight.hShiftRight, Nat.repeat, ExtendedMantissa.ofMantissaAndAccuracy]

/-- A mantissa that was rounded up to a power of two is moved by one bit. -/
theorem shiftToTargetExponent_two_pow {e : ℤ} (he : -1074 ≤ e) :
    shiftToTargetExponent .binary64 (2 ^ 53) e .exact = (⟨2 ^ 52, false, false⟩, e + 1) := by
  have hshift : (max (((2 ^ 53).log2 : ℤ) + e - 52) (-1074) - e).toNat = 1 := by
    rw [Nat.log2_two_pow]
    omega
  rw [shiftToTargetExponent_eq, hshift]
  rfl

/-- A rounded mantissa is moved to its place, which does not change the number. -/
theorem exists_shiftToTargetExponent {m : ℕ} {e : ℤ} (hm : m ≤ 2 ^ 53) (he : -1074 ≤ e)
    (hnormal : 2 ^ 52 ≤ m ∨ e = -1074) :
    ∃ n d, shiftToTargetExponent .binary64 m e .exact = (⟨n, false, false⟩, d) ∧
      Canonical n d ∧ (m : ℚ) * 2 ^ e = n * 2 ^ d := by
  by_cases hsmall : m < 2 ^ 53
  · exact ⟨m, e, shiftToTargetExponent_of_lt hsmall he, ⟨hsmall, he, hnormal⟩, rfl⟩
  · -- Rounding carried into one more bit, so the last bit is zero.
    have hcarry : m = 2 ^ 53 := by omega
    refine ⟨2 ^ 52, e + 1, ?_, ⟨by norm_num, by omega, .inl (le_refl _)⟩, ?_⟩
    · rw [hcarry]
      exact shiftToTargetExponent_two_pow he
    · rw [hcarry, zpow_add_one₀ (by norm_num)]
      push_cast
      ring

/-- A double from its mantissa, which may be zero. -/
def ofMantissa (sign : Sign) (m : ℕ) (e : ℤ) : UnpackedFloat :=
  if h : m = 0 then .zero sign else .finite sign m e (Nat.pos_of_ne_zero h)

theorem numberOf_ofMantissa (sign : Sign) (m : ℕ) (e : ℤ) :
    numberOf (ofMantissa sign m e) = signed sign (m * 2 ^ e) := by
  unfold ofMantissa
  split
  · next hzero =>
    rw [hzero, Nat.cast_zero, zero_mul]
    cases sign with
    | negative => exact neg_zero.symm
    | positive => rfl
  · exact numberOf_finite sign _

theorem isCanonical_ofMantissa (sign : Sign) {m : ℕ} {e : ℤ} (h : Canonical m e) :
    IsCanonical (ofMantissa sign m e) := by
  unfold ofMantissa
  split
  · exact .zero sign
  · exact .finite sign _ h

/-- Rounding shifts, rounds and moves the rounded mantissa to its place. -/
theorem roundWithAccuracy_eq (sign : Sign) {m : ℕ} {e t : ℤ} {accuracy : Accuracy}
    {em final : ExtendedMantissa} {d : ℤ}
    (hfirst : shiftToTargetExponent .binary64 m e accuracy = (em, t))
    (hsecond : shiftToTargetExponent .binary64 em.roundedMantissa t .exact = (final, d)) :
    roundWithAccuracy .binary64 sign m e accuracy = ofMantissa sign final.mantissa d := by
  simp only [roundWithAccuracy, hfirst, hsecond]
  rfl

section

variable {m : ℕ} {e : ℤ} {u : ℚ} {accuracy : Accuracy}

/-- Bits are cut off until 53 are left or the least exponent is reached. -/
theorem exists_shift (h : 52 ≤ m.log2 ∨ e ≤ -1074) :
    ∃ shift : ℕ, max ((m.log2 : ℤ) + e - 52) (-1074) = e + shift ∧ m < 2 ^ (53 + shift) ∧
      (2 ^ (52 + shift) ≤ m ∨ e + shift = -1074) := by
  refine ⟨(max ((m.log2 : ℤ) + e - 52) (-1074) - e).toNat, by omega, ?_, ?_⟩
  · exact Nat.lt_of_lt_of_le Nat.lt_log2_self (Nat.pow_le_pow_right (by decide) (by omega))
  · by_cases hmin : (m.log2 : ℤ) + e - 52 ≤ -1074
    · right
      omega
    · left
      have hlog : 52 ≤ m.log2 := by omega
      have hm : m ≠ 0 := by
        rintro rfl
        rw [Nat.log2_zero] at hlog
        omega
      exact Nat.le_trans (Nat.pow_le_pow_right (by decide) (by omega)) (Nat.log2_self_le hm)

/-- Rounding a mantissa after a shift rounds the number. -/
theorem isRounding_shift {shift r : ℕ} (hu : (m : ℚ) ≤ u) (he : -1074 ≤ e + shift)
    (htop : 2 ^ (52 + shift) ≤ m ∨ e + shift = -1074) (hr : |(r : ℚ) - u / 2 ^ shift| ≤ 1 / 2) :
    IsRounding (u * 2 ^ e) (r * 2 ^ (e + shift)) := by
  refine ⟨e + shift, r, he, ?_, by rw [Int.cast_natCast], ?_⟩
  · rcases htop with htop | hmin
    · right
      have hpower : (2 : ℚ) ^ (52 + shift) ≤ u := by
        have hcast : ((2 ^ (52 + shift) : ℕ) : ℚ) ≤ m := Nat.cast_le.2 htop
        rw [Nat.cast_pow, Nat.cast_ofNat] at hcast
        exact hcast.trans hu
      have hexponent : e + shift + 52 = ((52 + shift : ℕ) : ℤ) + e := by omega
      rw [hexponent, zpow_add₀ (by norm_num), zpow_natCast]
      exact (mul_le_mul_of_nonneg_right hpower (two_zpow_pos e).le).trans (le_abs_self _)
    · exact .inl hmin
  · have hscale : u * 2 ^ e = u / 2 ^ shift * 2 ^ (e + shift) := by
      rw [zpow_add₀ (by norm_num), zpow_natCast]
      field_simp
    rw [hscale, ← sub_mul, abs_mul, abs_of_pos (two_zpow_pos _), zpow_sub_one₀ (by norm_num),
      mul_comm ((2 : ℚ) ^ (e + shift))]
    exact mul_le_mul_of_nonneg_right (by simpa using hr) (two_zpow_pos _).le

/-- A number whose mantissa has enough bits is rounded. -/
theorem isRounding_roundWithAccuracy (sign : Sign) (h : Lies m u accuracy)
    (hprecise : 52 ≤ m.log2 ∨ e ≤ -1074) :
    IsRounding (signed sign (u * 2 ^ e)) (numberOf (roundWithAccuracy .binary64 sign m e accuracy)) ∧
      IsCanonical (roundWithAccuracy .binary64 sign m e accuracy) := by
  obtain ⟨shift, ht, hlt, htop⟩ := exists_shift hprecise
  have hfirst := shiftToTargetExponent_eq m e accuracy
  have hshift : (e + shift - e).toNat = shift := by omega
  rw [ht, hshift] at hfirst
  have hlies := lies_shiftRight (lies_ofMantissaAndAccuracy h) shift
  have hmantissa : (ExtendedMantissa.ofMantissaAndAccuracy m accuracy >>> shift).mantissa =
      m / 2 ^ shift := by
    rw [mantissa_shiftRight, mantissa_ofMantissaAndAccuracy]
  generalize ExtendedMantissa.ofMantissaAndAccuracy m accuracy >>> shift = em at *
  have hleast := le_roundedMantissa em
  have hmost := roundedMantissa_le em
  have hbits : m / 2 ^ shift < 2 ^ 53 := by
    rwa [Nat.div_lt_iff_lt_mul (Nat.two_pow_pos shift), ← Nat.pow_add]
  have hnormal : 2 ^ 52 ≤ em.roundedMantissa ∨ e + shift = -1074 := by
    rcases htop with htop | hmin
    · have hdiv : 2 ^ 52 ≤ m / 2 ^ shift := by
        rwa [Nat.le_div_iff_mul_le (Nat.two_pow_pos shift), ← Nat.pow_add]
      omega
    · exact .inr hmin
  obtain ⟨n, d, hsecond, hcanonical, hnumber⟩ :=
    exists_shiftToTargetExponent (by omega) (by omega) hnormal
  have hround := isRounding_shift h.le (by omega) htop (abs_roundedMantissa_sub_le hlies)
  rw [roundWithAccuracy_eq sign hfirst hsecond, numberOf_ofMantissa, ← hnumber]
  exact ⟨hround.signed sign, isCanonical_ofMantissa sign hcanonical⟩

end

end PlotGrammar.Binary64
