import PlotGrammar.Proofs.Binary64.WholeNumbers

/-! # The ends of the finite doubles

  Division by zero and by infinity leaves the rational numbers: a positive
  double over zero is infinite (`div_zero`), a finite one over infinity is zero
  (`value_div_inf`). Finite doubles are below infinity (`lt_inf`), and below
  `2^1024` in size (`abs_value_lt`).
-/

namespace PlotGrammar.Binary64

open Float.Model Float.Model.UnpackedFloat

variable {x : Float} (hx : x.isFinite = true)
include hx

/-- The largest double is below `2^1024`. -/
theorem abs_value_lt : |value x| < 2 ^ (1024 : ℤ) := by
  rw [abs_value]
  rcases unpack_cases hx with ⟨hzero, -⟩ | ⟨m, e, -, -, hcanonical, he, hunits⟩
  · rw [hzero, Nat.cast_zero, zero_div]
    positivity
  · have hm : (m : ℚ) < 2 ^ (53 : ℤ) := by exact_mod_cast hcanonical.lt
    rw [hunits]
    calc (m : ℚ) * 2 ^ e < 2 ^ (53 : ℤ) * 2 ^ e := mul_lt_mul_of_pos_right hm (two_zpow_pos e)
      _ = 2 ^ (53 + e) := (zpow_add₀ (by norm_num) 53 e).symm
      _ ≤ 2 ^ (1024 : ℤ) := zpow_le_zpow_right₀ (by norm_num) (by omega)

theorem lt_inf : x < Float.inf := by
  have hlt : x < Float.inf ↔ x.toModel.unpack.lt Float.inf.toModel.unpack = true :=
    decide_eq_true_iff
  rw [hlt]
  rcases unpack_cases hx with ⟨-, hunpack⟩ | ⟨m, e, hm, hunpack, -⟩
  · rw [hunpack]
    rfl
  · rw [hunpack]
    rfl

/-- A positive double is taken apart into a positive mantissa. -/
theorem unpack_of_pos (hpos : 0 < value x) :
    ∃ m e, ∃ hm : 0 < m, x.toModel.unpack = .finite .positive m e hm := by
  have hsign : ¬ negative x = true := by
    rw [negative_iff hpos.ne']
    exact hpos.not_gt
  rcases unpack_cases hx with ⟨hzero, -⟩ | ⟨m, e, hm, hunpack, -⟩
  · rw [value_of_not_negative hsign, hzero, Nat.cast_zero, zero_div] at hpos
    exact absurd hpos (lt_irrefl 0)
  · rw [if_neg hsign] at hunpack
    exact ⟨m, e, hm, hunpack⟩

theorem div_zero (hpos : 0 < value x) : x / 0.0 = Float.inf := by
  obtain ⟨m, e, hm, hunpack⟩ := unpack_of_pos hx hpos
  show Float.ofModel (.pack (x.toModel.unpack.div .binary64 (Float.toModel 0.0).unpack)) = _
  rw [hunpack]
  rfl

theorem value_div_inf : (x / Float.inf).isFinite = true ∧ value (x / Float.inf) = 0 := by
  have hunpack : ∃ sign, x.toModel.unpack.div .binary64 Float.inf.toModel.unpack = .zero sign := by
    rcases unpack_cases hx with ⟨-, hunpack⟩ | ⟨m, e, hm, hunpack, -⟩
    · rw [hunpack]
      exact ⟨_, rfl⟩
    · rw [hunpack]
      exact ⟨_, rfl⟩
  obtain ⟨sign, hunpack⟩ := hunpack
  have hquotient : x / Float.inf = Float.ofModel (.pack (.zero sign)) := by
    show Float.ofModel (.pack (x.toModel.unpack.div .binary64 Float.inf.toModel.unpack)) = _
    rw [hunpack]
  rw [hquotient]
  exact value_pack (.zero sign) (by rw [numberOf_zero, abs_zero]; positivity)

end PlotGrammar.Binary64
