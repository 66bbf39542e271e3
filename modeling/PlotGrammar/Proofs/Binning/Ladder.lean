import PlotGrammar.Proofs.Binary64.Order
import PlotGrammar.Proofs.Binning.Fitting

/-! # The ladder of widths

  Widths are made larger along a ladder, whose rungs are `2`, `5` and `10` times
  the powers of ten (`rung`, `widen_rung`). The width that is chosen for a span
  is a rung, or so narrow that its digits may be off, and then the next one is
  a rung (`exists_niceWidth`).

  A rung from a thousandth on is exact: rounding it to its own places does not
  change it (`isExact_rung`).
-/

namespace PlotGrammar.Binning

open Binary64 (value Nearest)
open Decimal (powerOfTen)

/-! ### Rungs -/

/-- The widths of the ladder, from `2e-10` on. -/
def rung (n : ℕ) : Float :=
  (if n % 3 = 0 then 2.0 else if n % 3 = 1 then 5.0 else 10.0) * powerOfTen ((n / 3 : ℕ) - 10)

/-- Widening climbs by one rung. -/
theorem widen_rung : ∀ n < 39, widen (rung n) = rung (n + 1) := by
  decide +kernel

theorem rung_bounds : ∀ n < 57, (rung n).isFinite = true ∧ 1 / 10 ^ 10 ≤ value (rung n) ∧
    value (rung n) ≤ 10 ^ 10 := by
  decide +kernel

/-- The lower rungs are narrow. -/
theorem rung_narrow_iff : ∀ n < 57, value (rung n) < 1 / 2000 ↔ n < 19 := by
  decide +kernel

/-- The upper rungs are beyond all numbers. -/
theorem rung_wide : ∀ n < 57, 39 ≤ n → 1000 < value (rung n) := by
  decide +kernel

/-- Rounding a width to its own places does not change it. -/
structure IsExact (width : Float) : Prop where
  roundTo_self : value (roundTo width width) = value width
  roundTo_neg : value (roundTo width (-width)) = -value width

instance (width : Float) : Decidable (IsExact width) :=
  decidable_of_iff (value (roundTo width width) = value width ∧
      value (roundTo width (-width)) = -value width)
    ⟨fun ⟨self, neg⟩ => ⟨self, neg⟩, fun h => ⟨h.roundTo_self, h.roundTo_neg⟩⟩

theorem isExact_rung : ∀ n < 57, 19 ≤ n → IsExact (rung n) := by
  decide +kernel

/-! ### Stepping on the ladder -/

/-- A width that is narrow, and from which widening leads to a rung. -/
structure IsBelow (width : Float) (n : ℕ) : Prop where
  isFinite : width.isFinite = true
  least : 1 / 10 ^ 10 ≤ value width
  narrow : value width < 1 / 2000
  widen_eq : widen width = rung n

instance (width : Float) (n : ℕ) : Decidable (IsBelow width n) :=
  decidable_of_iff (width.isFinite = true ∧ 1 / 10 ^ 10 ≤ value width ∧ value width < 1 / 2000 ∧
      widen width = rung n)
    ⟨fun ⟨isFinite, least, narrow, widen_eq⟩ => ⟨isFinite, least, narrow, widen_eq⟩,
      fun h => ⟨h.isFinite, h.least, h.narrow, h.widen_eq⟩⟩

/-- A width that is a rung, or narrow and below a rung. -/
def StartsLadder (width : Float) : Prop :=
  (∃ n < 57, width = rung n) ∨ ∃ n < 39, IsBelow width n

/-- Powers of ten from a thousandth on are rungs, and so are their halves and
    their fifths. -/
theorem powerOfTen_eq_rung : ∀ i : ℕ, i < 9 → powerOfTen (i - 3) = rung (3 * i + 20) := by
  decide +kernel

theorem rung_mul_ten : ∀ j < 12, rung (3 * j + 20) * 10.0 = rung (3 * j + 23) := by
  decide +kernel

theorem rung_div : ∀ j < 13, rung (3 * j + 20) / 2.0 = rung (3 * j + 19) ∧
    rung (3 * j + 20) / 5.0 = rung (3 * j + 18) := by
  decide +kernel

/-- Narrow powers of ten become right when they get to a thousandth. -/
theorem tenTimes_eq_thousandth : ∀ i : ℕ, i < 6 → 2 ≤ i →
    tenTimes (6 - i) (powerOfTen (i - 9)) = rung 20 := by
  decide +kernel

theorem tenTimes_eq_rung {i : ℕ} (hi : i < 15) : ∀ times j : ℕ, times < 5 → i + times = j + 6 →
    tenTimes times (powerOfTen (i - 9)) = rung (3 * j + 20)
  | 0, j, _, hj => by
    have hpower := powerOfTen_eq_rung j (by omega)
    rw [tenTimes, ← hpower, show ((i : ℕ) : ℤ) - 9 = j - 3 from by omega]
  | times + 1, j, htimes, hj => by
    by_cases hfirst : j = 0
    · have hthousandth := tenTimes_eq_thousandth i (by omega) (by omega)
      rw [show 6 - i = times + 1 from by omega] at hthousandth
      rw [hthousandth, hfirst]
    · have hprevious := tenTimes_eq_rung hi times (j - 1) (by omega) (by omega)
      rw [tenTimes, hprevious, rung_mul_ten (j - 1) (by omega)]
      congr 1
      omega

/-- The narrow ones may be off a rung by their last digit. -/
theorem isBelow_tenTimes : ∀ i : ℕ, i < 6 → ∀ times < 5, i + times < 6 →
    IsBelow (tenTimes times (powerOfTen (i - 9))) (3 * (i + times) + 3) ∧
      IsBelow (tenTimes times (powerOfTen (i - 9)) / 2.0) (3 * (i + times) + 2) ∧
      IsBelow (tenTimes times (powerOfTen (i - 9)) / 5.0) (3 * (i + times) + 1) := by
  decide +kernel

theorem startsLadder_tenTimes {i times : ℕ} (hi : i < 15) (htimes : times < 5) :
    StartsLadder (tenTimes times (powerOfTen (i - 9))) ∧
      StartsLadder (tenTimes times (powerOfTen (i - 9)) / 2.0) ∧
      StartsLadder (tenTimes times (powerOfTen (i - 9)) / 5.0) := by
  by_cases hnarrow : i + times < 6
  · obtain ⟨hwidth, hhalf, hfifth⟩ := isBelow_tenTimes i (by omega) times htimes hnarrow
    exact ⟨.inr ⟨3 * (i + times) + 3, by omega, hwidth⟩,
      .inr ⟨3 * (i + times) + 2, by omega, hhalf⟩, .inr ⟨3 * (i + times) + 1, by omega, hfifth⟩⟩
  · obtain ⟨j, hj⟩ := Nat.exists_eq_add_of_le' (not_lt.1 hnarrow)
    obtain ⟨hhalf, hfifth⟩ := rung_div j (by omega)
    rw [tenTimes_eq_rung hi times j htimes hj, hhalf, hfifth]
    exact ⟨.inl ⟨3 * j + 20, by omega, rfl⟩, .inl ⟨3 * j + 19, by omega, rfl⟩,
      .inl ⟨3 * j + 18, by omega, rfl⟩⟩

/-- The width that is chosen for a span of everyday size is on the ladder or
    below it. -/
theorem exists_niceWidth {span : Float} {maxBins : ℕ} (hspan : span.isFinite = true)
    (hspan_least : 1 / 1024 ≤ value span) (hspan_lt : value span < 10 ^ 4) (hbins : maxBins ≤ 1000) :
    ∃ width, niceWidth span maxBins = .ok width ∧ StartsLadder width := by
  have hspan_pos : 0 < value span := by linarith
  obtain ⟨hmost, hmost_least, hmost_le⟩ :=
    value_ofNat_bounds (n := max maxBins 1) (by omega) (by omega)
  have hmost_value : value (Float.ofNat (max maxBins 1)) ≤ 1000 := by
    rw [Binary64.value_ofNat (by omega)]
    exact_mod_cast (by omega : max maxBins 1 ≤ 1000)
  have hguess := span_lt_guess hspan_pos hmost_least
  have hguess_le := guess_le hspan_pos hmost_least (e := 4) (by exact_mod_cast hspan_lt)
  have hchosen := niceWidth_cases maxBins hspan hspan_pos rfl
  unfold guess at hchosen
  generalize Float.ofNat (max maxBins 1) = most at *
  generalize Decimal.roundLog span - Decimal.ceilLog most = e at *
  -- A guess that were too narrow would not reach the span.
  have hguess_least : -9 ≤ e := by
    by_contra hnarrow
    have hten := Decimal.ten_zpow_le (d := e) (e := -10) (by omega)
    have hpos := Decimal.ten_zpow_pos e
    have hmul : value most * 10 ^ e ≤ 1000 * 10 ^ (-10 : ℤ) :=
      mul_le_mul hmost_value hten hpos.le (by norm_num)
    norm_num at hmul
    linarith
  obtain ⟨times, htimes, hsearch⟩ := exists_tenTimes hspan hspan_pos hmost hmost_least hmost_le
    hguess hguess_least hguess_le
  obtain ⟨i, hi, rfl⟩ : ∃ i : ℕ, i < 15 ∧ e = i - 9 := ⟨(e + 9).toNat, by omega, by omega⟩
  obtain ⟨hwidth, hhalf, hfifth⟩ := startsLadder_tenTimes hi htimes
  simp only [hsearch, reduceCtorEq, false_and, exists_false, false_or, Except.ok.injEq] at hchosen
  obtain ⟨-, rfl, hchosen | hchosen | hchosen⟩ := hchosen
  · exact ⟨_, hchosen, hwidth⟩
  · exact ⟨_, hchosen, hhalf⟩
  · exact ⟨_, hchosen, hfifth⟩

/-! ### Sound widths -/

/-- A width of moderate size that is exact unless it is narrow. -/
structure IsSound (width : Float) : Prop where
  isFinite : width.isFinite = true
  least : 1 / 10 ^ 10 ≤ value width
  most : value width ≤ 10 ^ 10
  isExact : 1 / 2000 ≤ value width → IsExact width

theorem IsSound.pos {width : Float} (h : IsSound width) : 0 < value width :=
  lt_of_lt_of_le (by norm_num) h.least

/-- What is at most one width in size is no more than a double can be. -/
theorem IsSound.lt_of_le {width : Float} (h : IsSound width) {z : ℚ} (hz : |z| ≤ value width) :
    |z| < 2 ^ (1024 : ℤ) :=
  calc |z| ≤ value width := hz
    _ ≤ 10 ^ 10 := h.most
    _ < 2 ^ (40 : ℤ) := by norm_num
    _ ≤ 2 ^ (1024 : ℤ) := zpow_le_zpow_right₀ (by norm_num) (by norm_num)

theorem IsBelow.isSound {width : Float} {n : ℕ} (h : IsBelow width n) : IsSound width :=
  ⟨h.isFinite, h.least, h.narrow.le.trans (by norm_num),
    fun hle => absurd h.narrow (not_lt.2 hle)⟩

theorem isSound_rung {n : ℕ} (hn : n < 57) : IsSound (rung n) := by
  obtain ⟨hfinite, hleast, hmost⟩ := rung_bounds n hn
  refine ⟨hfinite, hleast, hmost, ?_⟩
  intro hwidth
  apply isExact_rung n hn
  rw [← not_lt, ← rung_narrow_iff n hn, not_lt]
  exact hwidth

theorem StartsLadder.isSound {width : Float} (h : StartsLadder width) : IsSound width := by
  rcases h with ⟨n, hn, rfl⟩ | ⟨n, -, hbelow⟩
  · exact isSound_rung hn
  · exact hbelow.isSound

end PlotGrammar.Binning
