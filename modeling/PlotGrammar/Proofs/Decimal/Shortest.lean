import PlotGrammar.Proofs.Decimal.Rounding

/-! # Shortest decimals read back

  The decimal that is written for a double reads as the double
  (`toFloat?_shortest`). The search for few digits accepts only what reads back
  and falls back to the exact value of the double, and the zeros that are cut
  off the end go into the exponent.
-/

namespace PlotGrammar

/-! ### Zeros at the end -/

/-- The digits of a number up to the zeros at its end. -/
theorem exists_mul_pow_eq (n : Nat) :
    ∃ front, n = front *
      10 ^ ((Nat.toDigits 10 n).reverse.takeWhile (· == '0')).length := by
  generalize hzeros : (Nat.toDigits 10 n).reverse.takeWhile (· == '0') = zeros
  have hreplicate : zeros = List.replicate zeros.length '0' := by
    rw [List.eq_replicate_iff]
    refine ⟨rfl, fun c hc => ?_⟩
    rw [← hzeros] at hc
    exact beq_iff_eq.1 (List.all_eq_true.1 List.all_takeWhile c hc)
  have hdigits : Nat.toDigits 10 n =
      ((Nat.toDigits 10 n).reverse.dropWhile (· == '0')).reverse ++ zeros := by
    conv => lhs; rw [← List.reverse_reverse (Nat.toDigits 10 n),
      ← List.takeWhile_append_dropWhile (p := (· == '0')) (l := (Nat.toDigits 10 n).reverse)]
    rw [List.reverse_append, hzeros, hreplicate, List.reverse_replicate]
  refine ⟨Nat.ofDigitChars 10 ((Nat.toDigits 10 n).reverse.dropWhile (· == '0')).reverse 0, ?_⟩
  conv => lhs; rw [← Nat.ofDigitChars_ten_toDigits (n := n), hdigits, Nat.ofDigitChars_append,
    hreplicate, Nat.ofDigitChars_replicate_zero]
  exact Nat.mul_comm _ _

namespace Decimal

/-- Trimming moves zeros from the end of the coefficient into the exponent. -/
theorem trim_cases (d : Decimal) :
    d.coefficient = 0 ∧ d.trim = ⟨0, 0⟩ ∨
      ∃ front zeros : Nat, front ≠ 0 ∧ d.coefficient = front * 10 ^ zeros ∧
        d.trim = ⟨front, d.exponent + zeros⟩ := by
  by_cases hzero : d.coefficient = 0
  · exact .inl ⟨hzero, by rw [trim, if_pos hzero]⟩
  · obtain ⟨front, hfront⟩ := exists_mul_pow_eq d.coefficient
    refine .inr ⟨front, _, ?_, hfront, ?_⟩
    · rintro rfl
      exact hzero (by rw [hfront, Nat.zero_mul])
    · have hquotient := Nat.div_eq_of_eq_mul_left (Nat.pow_pos (by decide)) hfront
      rw [trim, if_neg hzero]
      dsimp only
      rw [Nat.pow_eq, hquotient]

/-- Trimming keeps the number. -/
theorem value_trim (d : Decimal) : d.trim.value = d.value := by
  rcases trim_cases d with ⟨hzero, htrim⟩ | ⟨front, zeros, -, hfront, htrim⟩
  · simp [htrim, value, hzero]
  · have hten : (10 : ℚ) ≠ 0 := by norm_num
    rw [htrim, value, value, hfront, zpow_add₀ hten, zpow_natCast]
    push_cast
    ring

/-- A trimmed decimal is zero in one way only. -/
theorem exponent_trim {d : Decimal} (h : d.trim.coefficient = 0) : d.trim.exponent = 0 := by
  rcases trim_cases d with ⟨-, htrim⟩ | ⟨front, zeros, hfront, -, htrim⟩
  · rw [htrim]
  · rw [htrim] at h
    exact absurd h hfront

/-! ### The search -/

/-- Whether a decimal reads back depends on its value only. -/
theorem readsAs_congr (bits : Nat) {d d' : Decimal} (h : d.value = d'.value) :
    readsAs bits d = readsAs bits d' := by
  rw [readsAs, readsAs, nearestBits_ratio_congr .toEven h]

/-- What the search finds reads back. -/
theorem readsAs_of_onGrid? {tie : Tie} {bits : Nat} {e : Int} {d : Decimal}
    (h : onGrid? tie bits e = some d) : readsAs bits d = true := by
  simp only [onGrid?] at h
  exact List.find?_some h

/-- A power of two is divided by in decimals as its fives are multiplied by. -/
theorem value_mul_five_pow (n k : Nat) :
    (⟨n * 5 ^ k, -(k : Int)⟩ : Decimal).value = (n : ℚ) / (2 ^ k : Nat) := by
  have hten : (10 : ℚ) ^ k = 5 ^ k * 2 ^ k := by rw [← mul_pow]; norm_num
  rw [value, zpow_neg, zpow_natCast, hten]
  push_cast
  field_simp

/-- The exact value of a double reads back. -/
theorem readsAs_exact (bits : Nat) :
    readsAs bits ⟨Binary64.unitsOfBits bits * Nat.pow 5 1074, -1074⟩ = true := by
  have hone := Binary64.one_eq
  rw [show (-1074 : Int) = -((1074 : Nat) : Int) from rfl, readsAs, beq_iff_eq]
  generalize 1074 = k at hone ⊢
  have hvalue := value_mul_five_pow (Binary64.unitsOfBits bits) k
  rw [← hone] at hvalue
  exact (nearestBits_ratio .toEven Binary64.one_pos hvalue).trans
    (Binary64.nearestBits_unitsOfBits .toEven bits)

/-- The decimal that is written for a double reads back. -/
theorem readsAs_shortest (tie : Tie) (bits : Nat) : readsAs bits (shortest tie bits) = true := by
  simp only [shortest]
  split
  · next hunits =>
    rw [Binary64.unitsOfBits_eq_zero_iff] at hunits
    rw [hunits, readsAs, nearestBits_of_coefficient_eq_zero .toEven rfl]
    rfl
  · rw [readsAs_congr bits (value_trim _)]
    cases hfound : (List.range mostDigits).findSome? fun i =>
        onGrid? tie bits (order (Binary64.unitsOfBits bits) Binary64.one - (i : Nat)) with
    | none => exact readsAs_exact bits
    | some d =>
      obtain ⟨i, -, hgrid⟩ := List.exists_of_findSome?_eq_some hfound
      exact readsAs_of_onGrid? hgrid

/-- The decimal that is written for a double is zero in one way only. -/
theorem exponent_shortest {tie : Tie} {bits : Nat} (h : (shortest tie bits).coefficient = 0) :
    (shortest tie bits).exponent = 0 := by
  simp only [shortest] at h ⊢
  split
  · rfl
  · next hunits =>
    rw [if_neg hunits] at h
    exact exponent_trim h

/-- The decimal that is written for a double is read as the double. -/
theorem toFloat?_shortest (tie : Tie) {bits : Nat} (h : bits < Binary64.infinityBits)
    (isNegative : Bool) :
    (shortest tie bits).toFloat? isNegative = some (Binary64.ofSizeBits isNegative bits) := by
  have hreads := readsAs_shortest tie bits
  rw [readsAs, beq_iff_eq] at hreads
  simp only [toFloat?_eq, hreads, if_pos h]

end Decimal

end PlotGrammar
