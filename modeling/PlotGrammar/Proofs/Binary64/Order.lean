import PlotGrammar.Proofs.Binary64.Arithmetic

/-! # Rounding keeps order

  A rounded number is as close to the exact one as any double is
  (`Nearest.closest`). So rounding does not pass a double
  (`Nearest.value_le`, `Nearest.le_value`), and what is less is not rounded to
  more (`Nearest.value_le_value`). Hence differences, quotients and sums of
  doubles keep the order of their first operands.
-/

namespace PlotGrammar.Binary64

open Float.Model Float.Model.UnpackedFloat

/-! ### The closest double -/

/-- No number of 53 bits is closer than the rounded one. -/
theorem IsRounding.closest {z v : ℚ} (h : IsRounding z v) {a j : ℤ} (ha : |a| < 2 ^ 53)
    (hj : -1074 ≤ j) : |v - z| ≤ |a * 2 ^ j - z| := by
  obtain ⟨t, r, -, hprecise, hmultiple, herror⟩ := h
  have hpos := two_zpow_pos t
  have hhalf : (2 : ℚ) ^ (t - 1) = 2 ^ t / 2 := by
    rw [zpow_sub_one₀ (by norm_num), div_eq_mul_inv]
  rw [hhalf] at herror
  -- Multiples of the last bit are the same or a whole bit apart.
  have hmultiples : ∀ s : ℤ, |v - z| ≤ |s * 2 ^ t - z| := by
    intro s
    by_cases hs : s = r
    · rw [hs, hmultiple]
    · have hone : (1 : ℚ) ≤ |((s - r : ℤ) : ℚ)| := by
        exact_mod_cast Int.one_le_abs (sub_ne_zero.2 hs)
      have hapart : 2 ^ t ≤ |s * 2 ^ t - v| := by
        rw [hmultiple, ← sub_mul, abs_mul, abs_of_pos hpos, ← Int.cast_sub]
        exact le_mul_of_one_le_left hpos.le hone
      have htriangle := abs_sub_le (s * 2 ^ t : ℚ) z v
      rw [abs_sub_comm z v] at htriangle
      linarith
  by_cases htj : t ≤ j
  · have hmultiple' : (a : ℚ) * 2 ^ j = (a * 2 ^ (j - t).toNat : ℤ) * 2 ^ t := by
      rw [Int.cast_mul, Int.cast_pow, Int.cast_ofNat, mul_assoc, ← zpow_natCast,
        ← zpow_add₀ (by norm_num)]
      congr 2
      omega
    rw [hmultiple']
    exact hmultiples _
  · -- A number with a finer last bit is smaller than the least one with this bit.
    have hlarge : 2 ^ (t + 52) ≤ |z| := hprecise.resolve_left (by omega)
    have hsmall : |(a : ℚ) * 2 ^ j| ≤ 2 ^ (t + 52) := by
      have hcast : |(a : ℚ)| ≤ 2 ^ 53 := by exact_mod_cast ha.le
      rw [abs_mul, abs_of_pos (two_zpow_pos j)]
      calc |(a : ℚ)| * 2 ^ j ≤ 2 ^ 53 * 2 ^ j := mul_le_mul_of_nonneg_right hcast (two_zpow_pos j).le
        _ = 2 ^ (53 + j) := by rw [zpow_add₀ (by norm_num)]; norm_num
        _ ≤ 2 ^ (t + 52) := zpow_le_zpow_right₀ (by norm_num) (by omega)
    have hpower : ((2 ^ 52 : ℤ) : ℚ) * 2 ^ t = 2 ^ (t + 52) := by
      rw [zpow_add₀ (by norm_num), mul_comm]
      norm_num
    have hdistance : |z| - 2 ^ (t + 52) ≤ |a * 2 ^ j - z| := by
      have htriangle := abs_sub_abs_le_abs_sub z (a * 2 ^ j : ℚ)
      rw [abs_sub_comm] at htriangle
      linarith
    rcases le_total 0 z with hz | hz
    · have hleast := hmultiples (2 ^ 52)
      rw [abs_of_nonneg hz] at hlarge hdistance
      rw [hpower, abs_of_nonpos (sub_nonpos.2 hlarge), neg_sub] at hleast
      exact hleast.trans hdistance
    · have hleast := hmultiples (-2 ^ 52)
      rw [abs_of_nonpos hz] at hlarge hdistance
      have hnonneg : 0 ≤ -2 ^ (t + 52) - z := by linarith
      rw [Int.cast_neg, neg_mul, hpower, abs_of_nonneg hnonneg] at hleast
      linarith

/-- A number of 53 bits, the last of which is not too small for doubles. -/
def IsDouble (q : ℚ) : Prop :=
  ∃ a j : ℤ, |a| < 2 ^ 53 ∧ -1074 ≤ j ∧ q = a * 2 ^ j

theorem isDouble_intCast {a : ℤ} (ha : |a| < 2 ^ 53) : IsDouble a :=
  ⟨a, 0, ha, by norm_num, by simp⟩

theorem isDouble_half {a : ℤ} (ha : |a| < 2 ^ 53) : IsDouble (a / 2) :=
  ⟨a, -1, ha, by norm_num, by rw [zpow_neg_one, div_eq_mul_inv]⟩

theorem isDouble_zero : IsDouble 0 := by
  simpa using isDouble_intCast (a := 0) (by norm_num)

theorem isDouble_one : IsDouble 1 := by
  simpa using isDouble_intCast (a := 1) (by norm_num)

theorem IsDouble.neg {q : ℚ} (h : IsDouble q) : IsDouble (-q) := by
  obtain ⟨a, j, ha, hj, rfl⟩ := h
  exact ⟨-a, j, by rwa [abs_neg], hj, by rw [Int.cast_neg, neg_mul]⟩

/-- Doubling only moves the bits. -/
theorem IsDouble.two_pow_mul {q : ℚ} (h : IsDouble q) (n : ℕ) : IsDouble (2 ^ n * q) := by
  obtain ⟨a, j, ha, hj, rfl⟩ := h
  refine ⟨a, j + n, ha, by omega, ?_⟩
  rw [zpow_add₀ (by norm_num), zpow_natCast]
  ring

/-- The number that a double stands for has 53 bits. -/
theorem isDouble_value {x : Float} (hx : x.isFinite = true) : IsDouble (value x) := by
  have hcanonical := isCanonical_unpack hx
  rw [value_eq_numberOf hx]
  generalize x.toModel.unpack = unpacked at hcanonical ⊢
  cases hcanonical with
  | zero sign => exact isDouble_zero
  | @finite sign m e hm h =>
    have hlt : |(sign.apply m : ℤ)| < 2 ^ 53 := by
      have hm_lt : (m : ℤ) < 2 ^ 53 := by exact_mod_cast h.lt
      cases sign with
      | positive => simpa [Sign.apply] using hm_lt
      | negative => simpa [Sign.apply] using hm_lt
    exact ⟨sign.apply m, e, hlt, h.least, rfl⟩

section

variable {z z' q : ℚ} {x y : Float}

/-- No double is closer than the rounded one. -/
theorem Nearest.closest (h : Nearest z x) (hq : IsDouble q) : |value x - z| ≤ |q - z| := by
  obtain ⟨a, j, ha, hj, rfl⟩ := hq
  exact h.isRounding.closest ha hj

/-- What a double stands for is not changed by rounding. -/
theorem Nearest.value_eq_of_isDouble (h : Nearest z x) (hz : IsDouble z) : value x = z := by
  have hclose := h.closest hz
  rw [sub_self, abs_zero] at hclose
  exact sub_eq_zero.1 (abs_nonpos_iff.1 hclose)

/-- Rounding does not pass a double above. -/
theorem Nearest.value_le (h : Nearest z x) (hq : IsDouble q) (hz : z ≤ q) : value x ≤ q := by
  by_contra hlt
  have hclose := h.closest hq
  rw [abs_of_nonneg (by linarith), abs_of_nonneg (by linarith)] at hclose
  linarith

/-- Rounding does not pass a double below. -/
theorem Nearest.le_value (h : Nearest z x) (hq : IsDouble q) (hz : q ≤ z) : q ≤ value x := by
  by_contra hlt
  have hclose := h.closest hq
  rw [abs_of_nonpos (by linarith), abs_of_nonpos (by linarith)] at hclose
  linarith

/-- What is less is not rounded to more. -/
theorem Nearest.value_le_value (h : Nearest z x) (h' : Nearest z' y) (hlt : z < z') :
    value x ≤ value y := by
  by_contra hpast
  rw [not_le] at hpast
  -- One number would be above the middle of both, and the other below it.
  have hclose := h.closest (isDouble_value h'.isFinite)
  have hclose' := h'.closest (isDouble_value h.isFinite)
  have hmiddle : value x + value y ≤ 2 * z := by
    rcases le_total (value y) z with hz | hz
    · rw [abs_of_nonpos (sub_nonpos.2 hz)] at hclose
      linarith [le_abs_self (value x - z)]
    · rw [abs_of_nonneg (sub_nonneg.2 hz)] at hclose
      linarith [le_abs_self (value x - z)]
  have hmiddle' : 2 * z' ≤ value x + value y := by
    rcases le_total z' (value x) with hz | hz
    · rw [abs_of_nonneg (sub_nonneg.2 hz)] at hclose'
      linarith [neg_abs_le (value y - z')]
    · rw [abs_of_nonpos (sub_nonpos.2 hz)] at hclose'
      linarith [neg_abs_le (value y - z')]
  linarith

end

/-! ### Operations -/

/-- A rounded number has at most twice the size. -/
theorem Nearest.abs_value_le {z : ℚ} {x : Float} (h : Nearest z x) : |value x| ≤ 2 * |z| := by
  rcases le_total 0 z with hz | hz
  · obtain ⟨hnonneg, hle⟩ := h.bounds hz
    rwa [abs_of_nonneg hz, abs_of_nonneg hnonneg]
  · obtain ⟨hnonneg, hle⟩ := h.isRounding.neg.bounds (neg_nonneg.2 hz)
    rwa [abs_of_nonpos hz, abs_of_nonpos (neg_nonneg.1 hnonneg)]

/-- What an operation gives for the less operand is not more, if it only looks
    at the number that the operand stands for. -/
theorem value_le_value_of_nearest {x y x' y' : Float} {f : ℚ → ℚ} (h : Nearest (f (value x)) x')
    (h' : Nearest (f (value y)) y') (hmono : ∀ u v, u < v → f u < f v) (hle : value x ≤ value y)
    (hzero : value x = 0 → value y = 0 → value x' = value y') (hsame : x = y → x' = y') :
    value x' ≤ value y' := by
  rcases hle.lt_or_eq with hlt | heq
  · exact h.value_le_value h' (hmono _ _ hlt)
  · -- The two zeros stand for the same number, any other number is one double.
    by_cases hx : value x = 0
    · exact (hzero hx (heq ▸ hx)).le
    · rw [hsame (eq_of_value_eq heq hx)]

section

variable {x y s : Float} (hx : x.isFinite = true) (hy : y.isFinite = true) (hs : s.isFinite = true)
include hx hy hs

/-- Differences keep the order. -/
theorem value_sub_le_value_sub (hsmall : |value x - value s| < 2 ^ (1000 : ℤ))
    (hsmall' : |value y - value s| < 2 ^ (1000 : ℤ)) (hle : value x ≤ value y) :
    value (x - s) ≤ value (y - s) := by
  have hnearest := nearest_sub hx hs hsmall
  have hnearest' := nearest_sub hy hs hsmall'
  apply value_le_value_of_nearest (f := (· - value s)) hnearest hnearest' _ hle
  · intro hzero hzero'
    have hexact : ∀ u : ℚ, u = 0 → IsDouble (u - value s) := by
      intro u hu
      rw [hu, zero_sub]
      exact (isDouble_value hs).neg
    rw [hnearest.value_eq_of_isDouble (hexact _ hzero),
      hnearest'.value_eq_of_isDouble (hexact _ hzero'), hzero, hzero']
  · rintro rfl
    rfl
  · intro u v huv
    exact sub_lt_sub_right huv _

/-- Quotients by a positive double keep the order. -/
theorem value_div_le_value_div (hpos : 0 < value s) (hsmall : |value x / value s| < 2 ^ (1000 : ℤ))
    (hsmall' : |value y / value s| < 2 ^ (1000 : ℤ)) (hle : value x ≤ value y) :
    value (x / s) ≤ value (y / s) := by
  have hnearest := nearest_div hx hs hpos.ne' hsmall
  have hnearest' := nearest_div hy hs hpos.ne' hsmall'
  apply value_le_value_of_nearest (f := (· / value s)) hnearest hnearest' _ hle
  · intro hzero hzero'
    have hexact : ∀ u : ℚ, u = 0 → IsDouble (u / value s) := by
      intro u hu
      rw [hu, zero_div]
      exact isDouble_zero
    rw [hnearest.value_eq_of_isDouble (hexact _ hzero),
      hnearest'.value_eq_of_isDouble (hexact _ hzero'), hzero, hzero']
  · rintro rfl
    rfl
  · intro u v huv
    exact div_lt_div_of_pos_right huv hpos

/-- Sums keep the order. -/
theorem value_add_le_value_add (hsmall : |value x + value s| < 2 ^ (1000 : ℤ))
    (hsmall' : |value y + value s| < 2 ^ (1000 : ℤ)) (hle : value x ≤ value y) :
    value (x + s) ≤ value (y + s) := by
  have hnearest := nearest_add hx hs hsmall
  have hnearest' := nearest_add hy hs hsmall'
  apply value_le_value_of_nearest (f := (· + value s)) hnearest hnearest' _ hle
  · intro hzero hzero'
    have hexact : ∀ u : ℚ, u = 0 → IsDouble (u + value s) := by
      intro u hu
      rw [hu, zero_add]
      exact isDouble_value hs
    rw [hnearest.value_eq_of_isDouble (hexact _ hzero),
      hnearest'.value_eq_of_isDouble (hexact _ hzero'), hzero, hzero']
  · rintro rfl
    rfl
  · intro u v huv
    exact add_lt_add_left huv _

end

end PlotGrammar.Binary64
