import PlotGrammar.Decimal.Logarithm
import PlotGrammar.Proofs.Binary64.WholeNumbers
import PlotGrammar.Proofs.Decimal.Shortest

/-! # How near the nearest double is

  The double nearest to a ratio rounds it like an operation on doubles does
  (`isRounding_nearestBits`). So a decimal that is read as a double, such as
  the one that is written for it, is off by at most half of its last bit
  (`abs_written_sub_le`), and powers of ten are near to themselves
  (`nearest_powerOfTen`).
-/

namespace PlotGrammar

/-! ### Rounded quotients -/

/-- A rounded quotient is off by at most a half. -/
theorem Tie.abs_divide_sub_le (tie : Tie) (num : ℕ) {den : ℕ} (hden : 0 < den) :
    |(tie.divide num den : ℚ) - num / den| ≤ 1 / 2 := by
  have hpos : (0 : ℚ) < den := by exact_mod_cast hden
  have hdiv : (num : ℚ) = (num / den : ℕ) * den + (num % den : ℕ) := by
    rw [mul_comm]
    exact_mod_cast (Nat.div_add_mod num den).symm
  have hlt : ((num % den : ℕ) : ℚ) < den := by exact_mod_cast Nat.mod_lt num hden
  have hz : (num : ℚ) = num / den * den := (div_mul_cancel₀ _ hpos.ne').symm
  have hnonneg : (0 : ℚ) ≤ (num % den : ℕ) := Nat.cast_nonneg _
  -- The quotient is rounded down below a half, and up above it.
  have hrounded : tie.divide num den = num / den ∧ ((num % den : ℕ) : ℚ) ≤ 1 / 2 * den ∨
      tie.divide num den = num / den + 1 ∧ 1 / 2 * (den : ℚ) ≤ (num % den : ℕ) := by
    simp only [divide]
    split
    · next hsmall =>
      have hcast : ((2 * (num % den) : ℕ) : ℚ) < den := Nat.cast_lt.2 hsmall
      push_cast at hcast
      exact .inl ⟨rfl, by linarith⟩
    · next hlarge =>
      have hcast : (den : ℚ) ≤ (2 * (num % den) : ℕ) := Nat.cast_le.2 (Nat.not_lt.1 hlarge)
      push_cast at hcast
      split
      · next htie =>
        have htie' : ((2 * (num % den) : ℕ) : ℚ) = den := by rw [htie.1]
        push_cast at htie'
        exact .inl ⟨rfl, by linarith⟩
      · exact .inr ⟨rfl, by linarith⟩
  generalize (num : ℚ) / den = z at *
  apply abs_le.2
  constructor
  · apply le_of_mul_le_mul_right _ hpos
    rcases hrounded with ⟨hdown, hhalf⟩ | ⟨hup, hhalf⟩
    · rw [hdown]
      linarith
    · rw [hup]
      push_cast
      linarith
  · apply le_of_mul_le_mul_right _ hpos
    rcases hrounded with ⟨hdown, hhalf⟩ | ⟨hup, hhalf⟩
    · rw [hdown]
      linarith
    · rw [hup]
      push_cast
      linarith

namespace Binary64

/-- A significand and a shift make up size bits, also if the significand has
    been rounded up to 54 bits. -/
theorem unitsOfBits_shift {shift significand : ℕ} (hmost : significand ≤ 2 ^ 53)
    (hleast : shift = 0 ∨ 2 ^ 52 ≤ significand) :
    unitsOfBits (shift * Nat.pow 2 52 + significand) = significand * 2 ^ shift := by
  rw [unitsOfBits]
  simp only [Nat.pow_eq]
  by_cases hsmall : significand < 2 ^ 52
  · have hshift : shift = 0 := by omega
    rw [hshift, Nat.zero_mul, Nat.zero_add, if_pos hsmall, Nat.pow_zero, Nat.mul_one]
  · rw [if_neg (by omega)]
    by_cases hcarry : significand = 2 ^ 53
    · have hdiv : (shift * 2 ^ 52 + significand) / 2 ^ 52 - 1 = shift + 1 := by omega
      have hmod : (shift * 2 ^ 52 + significand) % 2 ^ 52 = 0 := by omega
      rw [hdiv, hmod, hcarry, Nat.pow_succ]
      ring
    · have hdiv : (shift * 2 ^ 52 + significand) / 2 ^ 52 - 1 = shift := by omega
      have hmod : 2 ^ 52 + (shift * 2 ^ 52 + significand) % 2 ^ 52 = significand := by omega
      rw [hdiv, hmod]

/-- The nearest double keeps the top 53 bits of the units, rounded. -/
theorem exists_nearestBits (tie : Tie) (num : ℕ) {den : ℕ} (hden : 0 < den) :
    ∃ shift significand : ℕ,
      unitsOfBits (nearestBits tie num den) = significand * 2 ^ shift ∧
      (shift = 0 ∨ 2 ^ (52 + shift) ≤ num * one / den) ∧
      |(significand : ℚ) - (num * one : ℕ) / (den * 2 ^ shift : ℕ)| ≤ 1 / 2 := by
  generalize hshift : (num * one / den).log2 - 52 = shift
  have hpos := Nat.two_pow_pos shift
  have hbits : nearestBits tie num den =
      shift * Nat.pow 2 52 + tie.divide (num * one) (den * 2 ^ shift) := by
    simp only [nearestBits, hshift, Nat.pow_eq]
  have htop : shift = 0 ∨ 2 ^ (52 + shift) ≤ num * one / den := by
    by_cases hzero : shift = 0
    · exact .inl hzero
    · right
      have hlog : (num * one / den).log2 = 52 + shift := by omega
      have hne : num * one / den ≠ 0 := by
        intro h
        rw [h, Nat.log2_zero] at hlog
        omega
      rw [← hlog]
      exact Nat.log2_self_le hne
  have hbelow : num * one / den / 2 ^ shift < 2 ^ 53 := by
    rw [Nat.div_lt_iff_lt_mul hpos, ← Nat.pow_add]
    exact Nat.lt_of_lt_of_le Nat.lt_log2_self (Nat.pow_le_pow_right (by decide) (by omega))
  have hdivide := tie.divide_eq_or (num * one) (den * 2 ^ shift)
  rw [← Nat.div_div_eq_div_mul] at hdivide
  have hleast : shift = 0 ∨ 2 ^ 52 ≤ tie.divide (num * one) (den * 2 ^ shift) := by
    rcases htop with hzero | htop
    · exact .inl hzero
    · right
      have hdiv : 2 ^ 52 ≤ num * one / den / 2 ^ shift := by
        rwa [Nat.le_div_iff_mul_le hpos, ← Nat.pow_add]
      omega
  refine ⟨shift, tie.divide (num * one) (den * 2 ^ shift), ?_, htop,
    tie.abs_divide_sub_le _ (Nat.mul_pos hden hpos)⟩
  rw [hbits, unitsOfBits_shift (by omega) hleast]

/-- The double nearest to a ratio rounds it. -/
theorem isRounding_nearestBits (tie : Tie) (num : ℕ) {den : ℕ} (hden : 0 < den) :
    IsRounding (num / den) (unitsOfBits (nearestBits tie num den) / one) := by
  obtain ⟨shift, significand, hunits, htop, hclose⟩ := exists_nearestBits tie num hden
  have hpos : (0 : ℚ) < den := by exact_mod_cast hden
  have hone := one_cast_pos
  rw [hunits, Nat.cast_mul, Nat.cast_pow, Nat.cast_ofNat, mul_div_assoc, one_eq_zpow,
    ← zpow_natCast, ← zpow_sub₀ (by norm_num)]
  refine ⟨shift - 1074, significand, by omega, ?_, by rw [Int.cast_natCast], ?_⟩
  · rcases htop with hzero | htop
    · exact .inl (by omega)
    · right
      have hmul : 2 ^ (52 + shift) * den ≤ num * one := (Nat.le_div_iff_mul_le hden).1 htop
      have hcast : ((2 ^ (52 + shift) * den : ℕ) : ℚ) ≤ (num * one : ℕ) := Nat.cast_le.2 hmul
      rw [Nat.cast_mul, Nat.cast_mul, Nat.cast_pow, Nat.cast_ofNat, ← zpow_natCast] at hcast
      have hexponent : (shift : ℤ) - 1074 + 52 = ((52 + shift : ℕ) : ℤ) - 1074 := by omega
      rw [abs_of_nonneg (div_nonneg (Nat.cast_nonneg _) hpos.le), hexponent,
        zpow_sub₀ (by norm_num), ← one_eq_zpow, div_le_div_iff₀ hone hpos]
      exact hcast
  · have hscale : (num : ℚ) / den =
        (num * one : ℕ) / (den * 2 ^ shift : ℕ) * 2 ^ ((shift : ℤ) - 1074) := by
      rw [zpow_sub₀ (by norm_num), ← one_eq_zpow, zpow_natCast]
      push_cast
      field_simp
    rw [hscale, ← sub_mul, abs_mul, abs_of_pos (two_zpow_pos _), zpow_sub_one₀ (by norm_num),
      mul_comm ((2 : ℚ) ^ ((shift : ℤ) - 1074))]
    exact mul_le_mul_of_nonneg_right (hclose.trans_eq (one_div 2)) (two_zpow_pos _).le

/-- A ratio that is not too large has a finite nearest double. -/
theorem nearestBits_lt_infinityBits (tie : Tie) {num den : ℕ} (hden : 0 < den)
    (hsmall : (num : ℚ) / den < 2 ^ (1000 : ℤ)) : nearestBits tie num den < infinityBits := by
  by_contra hlarge
  have hnonneg : (0 : ℚ) ≤ num / den := div_nonneg (Nat.cast_nonneg _) (Nat.cast_nonneg _)
  have hround := isRounding_nearestBits tie num hden
  have hleast := (le_div_iff₀ one_cast_pos).2 (le_unitsOfBits (Nat.not_lt.1 hlarge))
  generalize (unitsOfBits (nearestBits tie num den) : ℚ) / one = v at *
  generalize (num : ℚ) / den = z at *
  rw [← abs_of_nonneg hnonneg] at hsmall
  have herror : |v - z| ≤ 2 ^ (1000 : ℤ) :=
    (hround.error (by norm_num) hsmall).trans (zpow_le_zpow_right₀ (by norm_num) (by norm_num))
  have hsum : (2 : ℚ) ^ (1024 : ℤ) ≤ 2 ^ (1 + 1000 : ℤ) :=
    calc (2 : ℚ) ^ (1024 : ℤ) ≤ v := hleast
      _ = (v - z) + z := (sub_add_cancel v z).symm
      _ ≤ 2 ^ (1000 : ℤ) + 2 ^ (1000 : ℤ) := add_le_add (abs_le.1 herror).2 ((le_abs_self z).trans hsmall.le)
      _ = 2 ^ (1 + 1000 : ℤ) := by rw [zpow_one_add₀ (by norm_num), two_mul]
  have hle := (zpow_le_zpow_iff_right₀ (by norm_num : (1 : ℚ) < 2)).1 hsum
  norm_num at hle

end Binary64

namespace Decimal

open Binary64 (IsRounding Nearest)

/-- A decimal is rounded when it is read. -/
theorem isRounding_of_readsAs {bits : ℕ} {d : Decimal} (h : readsAs bits d = true) :
    IsRounding d.value (Binary64.unitsOfBits bits / Binary64.one) := by
  rw [readsAs, beq_iff_eq] at h
  rw [value_eq_ratio, ← h]
  exact Binary64.isRounding_nearestBits .toEven d.ratio.1 d.ratio_snd_pos

/-! ### Powers of ten -/

theorem value_tenTo (e : ℤ) : ((tenTo e).1 : ℚ) / (tenTo e).2 = 10 ^ e := by
  rw [tenTo, ← value_eq_ratio, Decimal.value, Nat.cast_one, one_mul]

/-- A power of ten is rounded, unless it goes to the other neighbour. -/
theorem nearest_powerOfTen_of_not_upper {e : ℤ} (h : e ≤ 300) (hlower : e ∉ upperPowers) :
    Nearest (10 ^ e) (powerOfTen e) := by
  have hden : 0 < (tenTo e).2 := ratio_snd_pos ⟨1, e⟩
  have hsmall : ((tenTo e).1 : ℚ) / (tenTo e).2 < 2 ^ (1000 : ℤ) := by
    rw [value_tenTo]
    calc (10 : ℚ) ^ e ≤ 10 ^ (300 : ℤ) := zpow_le_zpow_right₀ (by norm_num) h
      _ = (10 ^ 3) ^ 100 := by rw [← pow_mul, zpow_ofNat]
      _ < (2 ^ 10) ^ 100 := pow_lt_pow_left₀ (by norm_num) (by norm_num) (by norm_num)
      _ = 2 ^ (1000 : ℤ) := by rw [← pow_mul, zpow_ofNat]
  have hbits := Binary64.nearestBits_lt_infinityBits .toEven hden hsmall
  have hround := Binary64.isRounding_nearestBits .toEven (tenTo e).1 hden
  have hpower : powerOfTen e =
      Binary64.ofSizeBits false (Binary64.nearestBits .toEven (tenTo e).1 (tenTo e).2) := by
    have hcontains : ¬ upperPowers.contains e = true := by rwa [List.contains_iff_mem]
    simp only [powerOfTen, hcontains, Bool.false_eq_true, if_false]
    rw [Nat.min_eq_left hbits.le]
  have hnegative := Binary64.negative_ofSizeBits false hbits
  have hvalue : Binary64.value (powerOfTen e) =
      (Binary64.unitsOfBits (Binary64.nearestBits .toEven (tenTo e).1 (tenTo e).2) : ℚ) /
        Binary64.one := by
    rw [hpower, Binary64.value, hnegative, if_neg Bool.false_ne_true, Binary64.units,
      Binary64.sizeBits_ofSizeBits false hbits]
  refine ⟨?_, ?_⟩
  · rw [hpower]
    exact Binary64.isFinite_ofSizeBits false hbits
  · rw [hvalue, ← value_tenTo]
    exact hround

/-- So the powers up to the first such one are rounded. -/
theorem nearest_powerOfTen {e : ℤ} (h : e ≤ 22) : Nearest (10 ^ e) (powerOfTen e) := by
  apply nearest_powerOfTen_of_not_upper (by omega)
  simp only [upperPowers, List.mem_cons, List.not_mem_nil, or_false]
  omega

/-- A power of ten that is rounded to zero has the positive sign. -/
theorem powerOfTen_eq_zero {e : ℤ} (hfinite : (powerOfTen e).isFinite = true)
    (hzero : Binary64.value (powerOfTen e) = 0) : powerOfTen e = 0.0 := by
  obtain ⟨bits, hmost, hpower⟩ : ∃ bits ≤ Binary64.infinityBits,
      powerOfTen e = Binary64.ofSizeBits false bits := ⟨_, Nat.min_le_right _ _, rfl⟩
  rw [hpower] at hfinite hzero ⊢
  rcases Nat.lt_or_eq_of_le hmost with hbits | rfl
  · have hunits := Binary64.abs_value (Binary64.ofSizeBits false bits)
    rw [hzero, abs_zero, eq_comm, div_eq_zero_iff, Nat.cast_eq_zero] at hunits
    have hsize := Binary64.unitsOfBits_eq_zero_iff.1
      (hunits.resolve_right Binary64.one_cast_pos.ne')
    rw [Binary64.sizeBits_ofSizeBits false hbits] at hsize
    rw [hsize]
    rfl
  · have hinfinite : (Binary64.ofSizeBits false Binary64.infinityBits).isFinite = false := by
      decide +kernel
    rw [hinfinite] at hfinite
    cases hfinite

/-! ### What is written -/

/-- The number that is written for a double. -/
def written (tie : Tie) (x : Float) : ℚ :=
  if Binary64.negative x then -(shortest tie (Binary64.sizeBits x)).value
  else (shortest tie (Binary64.sizeBits x)).value

/-- What is written is off by at most half of the last of 53 bits. -/
theorem abs_written_sub_le (tie : Tie) {x : Float} {k : ℤ} (hk : -1021 ≤ k)
    (hx : |Binary64.value x| < 2 ^ k) : |written tie x - Binary64.value x| ≤ 2 ^ (k - 54) := by
  have hround := isRounding_of_readsAs (readsAs_shortest tie (Binary64.sizeBits x))
  have hsize : |Binary64.value x| = Binary64.unitsOfBits (Binary64.sizeBits x) / Binary64.one :=
    Binary64.abs_value x
  have hnonneg := abs_nonneg (Binary64.value x)
  have herror := hround.error_of_rounded hk (by rwa [← hsize, abs_abs])
  rw [← hsize] at herror
  by_cases hsign : Binary64.negative x = true
  · have hneg : Binary64.value x = -|Binary64.value x| := by
      rw [hsize, Binary64.value_of_negative hsign]
      rfl
    rw [written, if_pos hsign, hneg, neg_sub_neg]
    exact herror
  · have hpos : Binary64.value x = |Binary64.value x| := by
      rw [hsize, Binary64.value_of_not_negative hsign]
      rfl
    rw [written, if_neg hsign, hpos, abs_sub_comm]
    exact herror

end Decimal

end PlotGrammar
