import PlotGrammar.Proofs.Binary64.Values

/-! # Doubles as counts

  A double that stands for a natural number is taken as that number when it
  becomes a count (`toCount_of_value`), and a negative one as zero
  (`toCount_of_neg`). Whole doubles are those whose size is a natural number
  (`isWhole_iff`).
-/

namespace PlotGrammar.Binary64

variable {x : Float}

/-- A size that is a natural number is so many ones. -/
theorem abs_value_eq_iff {n : ℕ} : |value x| = n ↔ units x = n * one := by
  have hpos := one_cast_pos
  rw [abs_value]
  generalize one = scale at *
  rw [div_eq_iff hpos.ne']
  norm_cast

theorem isWhole_iff : isWhole x = true ↔ ∃ n : ℕ, |value x| = n := by
  unfold isWhole
  rw [beq_iff_eq, ← Nat.dvd_iff_mod_eq_zero]
  constructor
  · intro hdvd
    obtain ⟨n, hn⟩ := exists_eq_mul_left_of_dvd hdvd
    exact ⟨n, abs_value_eq_iff.2 hn⟩
  · intro hwhole
    obtain ⟨n, hn⟩ := hwhole
    exact Dvd.intro_left n (abs_value_eq_iff.1 hn).symm

/-- A double that stands for a natural number is taken as it, up to the
    largest count. -/
theorem toCount_of_value (hx : x.isFinite = true) {n : ℕ} (h : value x = n) :
    toCount x = min n maxCount := by
  have hunits : units x = n * one := by
    rw [← abs_value_eq_iff, h, abs_of_nonneg (Nat.cast_nonneg n)]
  have hdiv : units x / one = n := by
    rw [hunits]
    exact Nat.mul_div_cancel n one_pos
  have hsign : negative x = true → n = 0 := by
    intro hnegative
    by_contra hne
    have hvalue : value x ≠ 0 := by
      rw [h]
      exact_mod_cast hne
    rw [negative_iff hvalue, h] at hnegative
    exact absurd hnegative (not_lt.2 (Nat.cast_nonneg n))
  unfold toCount
  rw [isNaN_of_isFinite hx, Bool.false_or, hdiv]
  by_cases hnegative : negative x = true
  · -- Minus zero is the only number with a sign that is a natural one.
    rw [if_pos hnegative, hsign hnegative, Nat.zero_min]
  · rw [if_neg hnegative]

theorem toCount_of_neg (h : value x < 0) : toCount x = 0 := by
  have hnegative := (negative_iff h.ne).2 h
  unfold toCount
  rw [hnegative, Bool.or_true, if_pos rfl]

end PlotGrammar.Binary64
