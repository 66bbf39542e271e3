import Mathlib.Tactic.FieldSimp
import Mathlib.Tactic.Positivity
import Mathlib.Tactic.Ring
import PlotGrammar.Decimal.Basic

/-! # The nearest double

  Which double is nearest to a ratio depends on its value only
  (`nearestBits_congr`), and every double is nearest to itself
  (`nearestBits_unitsOfBits`). So decimals of one value are read as the same
  double (`toFloat?_congr`), and settling decimals of extreme order by their
  order alone changes nothing (`toFloat?_eq`).
-/

namespace PlotGrammar

/-! ### Rounded quotients -/

namespace Tie

variable (tie : Tie)

/-- A rounded quotient is one of the two whole numbers next to the quotient. -/
theorem divide_eq_or (num den : Nat) :
    tie.divide num den = num / den ∨ tie.divide num den = num / den + 1 := by
  simp only [divide]
  split
  · exact .inl rfl
  · split
    · exact .inl rfl
    · exact .inr rfl

theorem div_le_divide (num den : Nat) : num / den ≤ tie.divide num den := by
  rcases tie.divide_eq_or num den with h | h <;> omega

/-- A quotient below a half is rounded down to zero. -/
theorem divide_eq_zero {num den : Nat} (h : 2 * num < den) : tie.divide num den = 0 := by
  have hlt : num < den := by omega
  unfold divide
  rw [Nat.mod_eq_of_lt hlt, if_pos h, Nat.div_eq_of_lt hlt]

/-- A whole quotient is not changed. -/
theorem divide_mul_self (quotient : Nat) {den : Nat} (hden : 0 < den) :
    tie.divide (quotient * den) den = quotient := by
  unfold divide
  rw [Nat.mul_mod_left, Nat.mul_zero, if_pos hden, Nat.mul_div_cancel _ hden]

/-- A common factor does not matter. -/
theorem divide_mul_mul {k : Nat} (hk : 0 < k) (num den : Nat) :
    tie.divide (k * num) (k * den) = tie.divide num den := by
  have hrem : 2 * (k * num % (k * den)) = k * (2 * (num % den)) := by
    rw [Nat.mul_mod_mul_left, Nat.mul_left_comm]
  unfold divide
  simp only [hrem, Nat.mul_div_mul_left _ _ hk, Nat.mul_lt_mul_left hk,
    Nat.mul_right_inj (Nat.ne_of_gt hk)]

end Tie

namespace Binary64

variable (tie : Tie)

theorem one_eq : one = 2 ^ 1074 := by
  unfold one
  generalize 1074 = n
  rfl

theorem one_pos : 0 < one := by
  rw [one_eq]
  positivity

theorem nearestBits_mul_mul {k : Nat} (hk : 0 < k) (num den : Nat) :
    nearestBits tie (k * num) (k * den) = nearestBits tie num den := by
  unfold nearestBits
  rw [Nat.mul_assoc k num, Nat.mul_div_mul_left _ _ hk]
  simp only [Nat.mul_assoc k den, Tie.divide_mul_mul tie hk]

/-- Equal ratios have the same nearest double. -/
theorem nearestBits_congr {num den num' den' : Nat} (hden : 0 < den) (hden' : 0 < den')
    (h : num * den' = num' * den) : nearestBits tie num den = nearestBits tie num' den' := by
  calc nearestBits tie num den
      = nearestBits tie (den' * num) (den' * den) := (nearestBits_mul_mul tie hden' num den).symm
    _ = nearestBits tie (den * num') (den * den') := by
        rw [Nat.mul_comm den' num, h, Nat.mul_comm num' den, Nat.mul_comm den' den]
    _ = nearestBits tie num' den' := nearestBits_mul_mul tie hden num' den'

/-- What is below half a unit is nearest to zero. -/
theorem nearestBits_eq_zero {num den : Nat} (h : 2 * (num * one) < den) :
    nearestBits tie num den = 0 := by
  have hlt : num * one < den := by omega
  unfold nearestBits
  simp only [Nat.div_eq_of_lt hlt, Nat.log2_zero, Nat.zero_sub, Nat.zero_mul, Nat.zero_add,
    Nat.pow_eq, Nat.pow_zero, Nat.mul_one]
  exact tie.divide_eq_zero h

/-- From `2^1024` on a ratio is beyond the largest double. -/
theorem infinityBits_le_nearestBits {num den k : Nat} (hden : 0 < den) (hk : 1024 ≤ k)
    (h : 2 ^ k * den ≤ num) : infinityBits ≤ nearestBits tie num den := by
  have hone := one_eq
  generalize hn : 1074 = n at hone
  have hunits : 2 ^ (k + n) ≤ num * one / den := by
    rw [Nat.le_div_iff_mul_le hden, Nat.pow_add, Nat.mul_right_comm, ← hone]
    exact Nat.mul_le_mul_right _ h
  have hne : num * one / den ≠ 0 := Nat.ne_of_gt (Nat.lt_of_lt_of_le (Nat.two_pow_pos _) hunits)
  have hlog : k + n ≤ (num * one / den).log2 := (Nat.le_log2 hne).2 hunits
  simp only [nearestBits]
  generalize hshift : (num * one / den).log2 - 52 = shift
  -- The significand keeps the top 53 bits of the units.
  have hsignificand : Nat.pow 2 52 ≤ tie.divide (num * one) (den * Nat.pow 2 shift) := by
    have htop : Nat.pow 2 52 * Nat.pow 2 shift ≤ num * one / den := by
      have hexponent : 52 + shift = (num * one / den).log2 := by omega
      rw [Nat.pow_eq, Nat.pow_eq, ← Nat.pow_add, hexponent]
      exact Nat.log2_self_le hne
    refine Nat.le_trans ?_ (tie.div_le_divide _ _)
    rw [← Nat.div_div_eq_div_mul]
    exact (Nat.le_div_iff_mul_le (Nat.two_pow_pos shift)).2 htop
  calc infinityBits = 2046 * Nat.pow 2 52 + Nat.pow 2 52 := rfl
    _ ≤ shift * Nat.pow 2 52 + tie.divide (num * one) (den * Nat.pow 2 shift) :=
        Nat.add_le_add (Nat.mul_le_mul_right _ (by omega)) hsignificand

/-! ### The units of a double -/

/-- Bits from `2^52` on are a significand with its leading one and a shift. -/
theorem exists_unitsOfBits_eq {bits : Nat} (h : Nat.pow 2 52 ≤ bits) :
    ∃ significand shift, Nat.pow 2 52 ≤ significand ∧ significand < Nat.pow 2 53 ∧
      bits = shift * Nat.pow 2 52 + significand ∧
      unitsOfBits bits = significand * Nat.pow 2 shift := by
  have hdiv := Nat.div_add_mod bits (Nat.pow 2 52)
  have hmod := Nat.mod_lt bits (Nat.two_pow_pos 52)
  have hpos := Nat.div_pos h (Nat.two_pow_pos 52)
  refine ⟨Nat.pow 2 52 + bits % Nat.pow 2 52, bits / Nat.pow 2 52 - 1, by omega, ?_, ?_, ?_⟩
  · simp only [Nat.pow_eq] at hmod ⊢
    omega
  · simp only [Nat.pow_eq] at *
    omega
  · rw [unitsOfBits, if_neg (Nat.not_lt.2 h)]

/-- A positive number of bits stands for a positive number of units. -/
theorem unitsOfBits_eq_zero_iff {bits : Nat} : unitsOfBits bits = 0 ↔ bits = 0 := by
  by_cases hbits : bits < Nat.pow 2 52
  · rw [unitsOfBits, if_pos hbits]
  · obtain ⟨significand, shift, hleast, -, hbits, hunits⟩ :=
      exists_unitsOfBits_eq (Nat.not_lt.1 hbits)
    have hpos : 0 < significand := Nat.lt_of_lt_of_le (Nat.two_pow_pos 52) hleast
    have hunits : 0 < unitsOfBits bits := by
      rw [hunits]
      exact Nat.mul_pos hpos (Nat.two_pow_pos shift)
    omega

/-- Every double is nearest to its own units. -/
theorem nearestBits_unitsOfBits (bits : Nat) : nearestBits tie (unitsOfBits bits) one = bits := by
  simp only [nearestBits, Nat.mul_div_cancel _ one_pos]
  by_cases hbits : bits < Nat.pow 2 52
  · -- Below `2^52` the bits are the units, of which none is cut off.
    have hshift : bits.log2 - 52 = 0 := by
      by_cases hzero : bits = 0
      · rw [hzero, Nat.log2_zero]
      · have := (Nat.log2_lt hzero).2 hbits
        omega
    rw [unitsOfBits, if_pos hbits, hshift, Nat.zero_mul, Nat.zero_add]
    simp only [Nat.pow_eq, Nat.pow_zero, Nat.mul_one]
    exact tie.divide_mul_self bits one_pos
  · -- From there on the bits cut off are those of the shift, which are zeros.
    obtain ⟨significand, shift, hleast, hmost, hbits, hunits⟩ :=
      exists_unitsOfBits_eq (Nat.not_lt.1 hbits)
    have hlog : (unitsOfBits bits).log2 - 52 = shift := by
      have hpos : unitsOfBits bits ≠ 0 := by
        rw [hunits]
        have := Nat.two_pow_pos 52
        have := Nat.two_pow_pos shift
        simp only [Nat.pow_eq] at *
        positivity
      have hleast : 52 + shift ≤ (unitsOfBits bits).log2 := by
        rw [Nat.le_log2 hpos, hunits, Nat.pow_add]
        exact Nat.mul_le_mul_right _ hleast
      have hmost : (unitsOfBits bits).log2 < 53 + shift := by
        rw [Nat.log2_lt hpos, hunits, Nat.pow_add]
        exact Nat.mul_lt_mul_of_pos_right hmost (Nat.two_pow_pos shift)
      omega
    rw [hlog, hunits, Nat.mul_comm one, Nat.mul_assoc, tie.divide_mul_self significand, hbits]
    exact Nat.mul_pos (Nat.two_pow_pos shift) one_pos

end Binary64

/-! ### Counting digits -/

theorem lt_pow_digitCount (n : Nat) : n < 10 ^ digitCount n :=
  (Nat.length_toDigits_le_iff (by decide) Nat.length_toDigits_pos).1 (Nat.le_refl _)

theorem pow_digitCount_le {n : Nat} (h : n ≠ 0) : 10 ^ (digitCount n - 1) ≤ n := by
  by_cases hone : digitCount n ≤ 1
  · rw [Nat.sub_eq_zero_of_le hone, Nat.pow_zero]
    exact Nat.pos_of_ne_zero h
  · -- With fewer digits the number would be smaller.
    by_contra hlt
    have hle : digitCount n ≤ digitCount n - 1 :=
      (Nat.length_toDigits_le_iff (by decide) (by omega)).2 (Nat.not_le.1 hlt)
    omega

/-- Eight is less than ten. -/
theorem two_pow_le_ten_pow {m n : Nat} (h : m ≤ 3 * n) : 2 ^ m ≤ 10 ^ n :=
  calc 2 ^ m ≤ 2 ^ (3 * n) := Nat.pow_le_pow_right (by decide) h
    _ = 8 ^ n := Nat.pow_mul 2 3 n
    _ ≤ 10 ^ n := Nat.pow_le_pow_left (by decide) n

namespace Decimal

/-! ### The value of a decimal -/

/-- The number that a decimal stands for. -/
def value (d : Decimal) : ℚ := d.coefficient * 10 ^ d.exponent

theorem ratio_snd_pos (d : Decimal) : 0 < d.ratio.2 := by
  obtain ⟨coefficient, exponent⟩ := d
  cases exponent with
  | ofNat e => exact Nat.one_pos
  | negSucc e => exact Nat.pow_pos (by decide)

theorem value_eq_ratio (d : Decimal) : d.value = (d.ratio.1 : ℚ) / d.ratio.2 := by
  obtain ⟨coefficient, exponent⟩ := d
  cases exponent with
  | ofNat e => simp [value, ratio]
  | negSucc e => simp [value, ratio, zpow_negSucc, div_eq_mul_inv]

/-- The nearest double of a decimal is that of any ratio of its value. -/
theorem nearestBits_ratio (tie : Tie) {d : Decimal} {num den : Nat} (hden : 0 < den)
    (h : d.value = (num : ℚ) / den) :
    Binary64.nearestBits tie d.ratio.1 d.ratio.2 = Binary64.nearestBits tie num den := by
  rw [value_eq_ratio, div_eq_div_iff] at h
  · exact Binary64.nearestBits_congr tie d.ratio_snd_pos hden (by exact_mod_cast h)
  · exact_mod_cast Nat.ne_of_gt d.ratio_snd_pos
  · exact_mod_cast Nat.ne_of_gt hden

/-- Decimals of one value have the same nearest double. -/
theorem nearestBits_ratio_congr (tie : Tie) {d d' : Decimal} (h : d.value = d'.value) :
    Binary64.nearestBits tie d.ratio.1 d.ratio.2 =
      Binary64.nearestBits tie d'.ratio.1 d'.ratio.2 :=
  nearestBits_ratio tie d'.ratio_snd_pos (by rw [h, value_eq_ratio])

/-! ### Extreme orders -/

theorem nearestBits_of_coefficient_eq_zero (tie : Tie) {d : Decimal} (h : d.coefficient = 0) :
    Binary64.nearestBits tie d.ratio.1 d.ratio.2 = 0 := by
  apply Binary64.nearestBits_eq_zero
  have hratio : d.ratio.1 = 0 := by
    obtain ⟨coefficient, exponent⟩ := d
    subst h
    cases exponent with
    | ofNat e => exact Nat.zero_mul _
    | negSucc e => rfl
  rw [hratio, Nat.zero_mul]
  exact d.ratio_snd_pos

/-- What is below the widest order is nearest to zero. -/
theorem nearestBits_of_lt (tie : Tie) {d : Decimal}
    (h : d.exponent + digitCount d.coefficient < -(widestOrder : Int)) :
    Binary64.nearestBits tie d.ratio.1 d.ratio.2 = 0 := by
  obtain ⟨coefficient, exponent⟩ := d
  cases exponent with
  | ofNat e =>
    simp only [Int.ofNat_eq_natCast] at h
    omega
  | negSucc e =>
    apply Binary64.nearestBits_eq_zero
    have hone : 2 * Binary64.one ≤ 10 ^ widestOrder := by
      have hone := Binary64.one_eq
      generalize hn : 1074 = n at hone
      rw [hone, Nat.mul_comm, ← Nat.pow_succ]
      exact two_pow_le_ten_pow (by unfold widestOrder; omega)
    calc 2 * (coefficient * Binary64.one)
        = coefficient * (2 * Binary64.one) := Nat.mul_left_comm _ _ _
      _ ≤ coefficient * 10 ^ widestOrder := Nat.mul_le_mul_left _ hone
      _ < 10 ^ digitCount coefficient * 10 ^ widestOrder :=
          Nat.mul_lt_mul_of_pos_right (lt_pow_digitCount _) (Nat.pow_pos (by decide))
      _ = 10 ^ (digitCount coefficient + widestOrder) := (Nat.pow_add _ _ _).symm
      _ ≤ 10 ^ (e + 1) := by
          refine Nat.pow_le_pow_right (by decide) ?_
          dsimp only at h
          omega

/-- What is above the widest order is beyond the largest double. -/
theorem infinityBits_le_of_lt (tie : Tie) {d : Decimal} (hd : d.coefficient ≠ 0)
    (h : (widestOrder : Int) < d.exponent + digitCount d.coefficient) :
    Binary64.infinityBits ≤ Binary64.nearestBits tie d.ratio.1 d.ratio.2 := by
  refine Binary64.infinityBits_le_nearestBits tie (k := 3 * widestOrder) d.ratio_snd_pos
    (by decide) ?_
  have hwide : 2 ^ (3 * widestOrder) ≤ 10 ^ widestOrder := two_pow_le_ten_pow (Nat.le_refl _)
  have hleast := pow_digitCount_le hd
  obtain ⟨coefficient, exponent⟩ := d
  cases exponent with
  | ofNat e =>
    calc 2 ^ (3 * widestOrder) * 1 ≤ 10 ^ widestOrder := by rw [Nat.mul_one]; exact hwide
      _ ≤ 10 ^ (digitCount coefficient - 1 + e) := by
          refine Nat.pow_le_pow_right (by decide) ?_
          simp only [Int.ofNat_eq_natCast] at h
          omega
      _ = 10 ^ (digitCount coefficient - 1) * 10 ^ e := Nat.pow_add _ _ _
      _ ≤ coefficient * 10 ^ e := Nat.mul_le_mul_right _ hleast
  | negSucc e =>
    calc 2 ^ (3 * widestOrder) * 10 ^ (e + 1) ≤ 10 ^ widestOrder * 10 ^ (e + 1) :=
          Nat.mul_le_mul_right _ hwide
      _ = 10 ^ (widestOrder + (e + 1)) := (Nat.pow_add _ _ _).symm
      _ ≤ 10 ^ (digitCount coefficient - 1) := by
          refine Nat.pow_le_pow_right (by decide) ?_
          dsimp only at h
          omega
      _ ≤ coefficient := hleast

/-! ### Reading -/

/-- A decimal is read as the nearest double, whatever its order. -/
theorem toFloat?_eq (isNegative : Bool) (d : Decimal) :
    d.toFloat? isNegative =
      let bits := Binary64.nearestBits .toEven d.ratio.1 d.ratio.2
      if bits < Binary64.infinityBits then some (Binary64.ofSizeBits isNegative bits)
      else none := by
  have hpos : 0 < Binary64.infinityBits := by decide
  simp only [toFloat?]
  split
  · next hlow =>
    have hnearest : Binary64.nearestBits .toEven d.ratio.1 d.ratio.2 = 0 := by
      rcases hlow with hzero | hlow
      · exact nearestBits_of_coefficient_eq_zero .toEven hzero
      · exact nearestBits_of_lt .toEven hlow
    rw [hnearest, if_pos hpos]
  · next hlow =>
    rw [not_or] at hlow
    split
    · next hhigh =>
      have hnearest := infinityBits_le_of_lt .toEven hlow.1 hhigh
      rw [if_neg (Nat.not_lt.2 hnearest)]
    · rfl

/-- Decimals of one value are read as the same double. -/
theorem toFloat?_congr (isNegative : Bool) {d d' : Decimal} (h : d.value = d'.value) :
    d.toFloat? isNegative = d'.toFloat? isNegative := by
  simp only [toFloat?_eq, nearestBits_ratio_congr .toEven h]

end Decimal

end PlotGrammar
