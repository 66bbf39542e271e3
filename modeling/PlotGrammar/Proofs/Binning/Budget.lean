import PlotGrammar.Proofs.Binning.Climbing

/-! # The number of buckets

  There are no more automatic buckets than there may be (`budget`), unless the
  slack moves an end (`labels_le_budget`): the greatest number may be slightly
  below the bucket that it is counted for (`IsLifted`), and the least one may be
  counted for a bucket before the first (`IsDropped`).

  Buckets are widened until they are few enough, or until the width is larger
  than both ends. Then the first bucket starts next to zero, so there is one, or
  two around it (`keepsBudget_of_near`).
-/

namespace PlotGrammar.Binning

open Binary64 (value Nearest)

/-- The number is below the bucket that it is counted for. -/
def IsLifted (b : Binning) (x : Float) : Prop :=
  value x < value b.start + value (b.bucket x) * value b.width

instance (b : Binning) (x : Float) : Decidable (IsLifted b x) :=
  inferInstanceAs (Decidable (_ < _))

/-- How many buckets there may be. One cannot hold numbers on both sides of
    zero, so there may be two for these. -/
def budget (maxBins : ℕ) (ends : Float × Float) : ℕ :=
  if maxBins = 1 ∧ value ends.1 < 0 ∧ 0 ≤ value ends.2 then 2 else maxBins

theorem le_budget {maxBins : ℕ} (h : 1 ≤ maxBins) (ends : Float × Float) :
    max maxBins 1 ≤ budget maxBins ends := by
  unfold budget
  split
  · omega
  · omega

theorem two_le_budget {maxBins : ℕ} (h : 1 ≤ maxBins) {ends : Float × Float}
    (hleast : value ends.1 < 0) (hgreatest : 0 ≤ value ends.2) : 2 ≤ budget maxBins ends := by
  unfold budget
  split
  · omega
  · next hmore =>
    have hne : maxBins ≠ 1 := fun hone => hmore ⟨hone, hleast, hgreatest⟩
    omega

section

variable {b : Binning} (h : IsRegular b) {x : Float} (hx : x.isFinite = true)
  (hsmall : |value x| ≤ 1000)
include h hx hsmall

/-- A number that is at most one or two widths from the start is not in a later
    bucket than it should be. -/
theorem value_bucket_le_two_pow {n : ℕ} (hn : n ≤ 1)
    (hle : value x ≤ value b.start + 2 ^ n * value b.width) : value (b.bucket x) ≤ 2 ^ n := by
  obtain ⟨-, -, hslack⟩ := slack_bounds
  have hpos := h.width_pos
  have htwo : (2 : ℤ) ^ (n + 1) ≤ 2 ^ 2 := pow_le_pow_right₀ (by norm_num) (by omega)
  have hpower : Binary64.IsDouble (2 ^ n) := by simpa using Binary64.isDouble_one.two_pow_mul n
  have hdistance : value (x - b.start) ≤ 2 ^ n * value b.width := by
    apply (nearest_distance h hx hsmall).2.value_le
    · exact (Binary64.isDouble_value h.width_isFinite).two_pow_mul n
    · linarith
  have hratio : value ((x - b.start) / b.width) ≤ 2 ^ n := by
    apply (nearest_ratio h hx hsmall).2.value_le hpower
    rw [div_le_iff₀ hpos]
    exact hdistance
  have hposition : value ((x - b.start) / b.width + slack) ≤ ((2 ^ (n + 1) + 1 : ℤ) : ℚ) / 2 := by
    apply (nearest_position h hx hsmall).2.value_le
    · apply Binary64.isDouble_half
      rw [abs_of_pos (by positivity)]
      omega
    · push_cast
      rw [pow_succ]
      linarith
  rw [(value_bucket h hx hsmall).2]
  have hfloor : ⌊value ((x - b.start) / b.width + slack)⌋ < 2 ^ n + 1 := by
    rw [Int.floor_lt]
    push_cast at hposition ⊢
    rw [pow_succ] at hposition
    linarith
  exact_mod_cast Int.lt_add_one_iff.1 hfloor

/-- A number that is at most one width below the start is in the bucket before
    the first one at the earliest. -/
theorem neg_one_le_value_bucket (hle : value b.start ≤ value x + value b.width) :
    -1 ≤ value (b.bucket x) := by
  obtain ⟨-, hslack, -⟩ := slack_bounds
  have hdistance : -value b.width ≤ value (x - b.start) := by
    apply (nearest_distance h hx hsmall).2.le_value (Binary64.isDouble_value h.width_isFinite).neg
    linarith
  have hratio : -1 ≤ value ((x - b.start) / b.width) := by
    apply (nearest_ratio h hx hsmall).2.le_value Binary64.isDouble_one.neg
    rw [le_div_iff₀ h.width_pos]
    linarith
  have hposition : -1 ≤ value ((x - b.start) / b.width + slack) := by
    apply (nearest_position h hx hsmall).2.le_value Binary64.isDouble_one.neg
    linarith
  rw [(value_bucket h hx hsmall).2]
  exact_mod_cast Int.le_floor.2 (by push_cast; exact hposition)

end

/-! ### How many buckets there are -/

/-- Regular buckets from around the least number on, as many as there may be, or
    one more where the greatest number is counted for a bucket that it is below. -/
structure KeepsBudget (b : Binning) (maxBins : ℕ) (ends : Float × Float) (count : ℕ) : Prop where
  isRegular : IsRegular b
  start_le : value b.start ≤ value ends.1 + value b.width
  bucketCount_eq : b.bucketCount ends.2 = .ok count
  count_le : count ≤ maxBins ∨ ¬ IsLifted b ends.2 → count ≤ budget maxBins ends
  count_le_succ : count ≤ budget maxBins ends + 1

/-- Where the first bucket starts next to zero, the greatest number is in one of
    the buckets that there may be. -/
theorem exists_room {ends : Float × Float} {maxBins : ℕ} (hbins : 1 ≤ maxBins) {k : ℤ} {w : ℚ}
    (hpos : 0 < w) (hk : IsNextToZero (value ends.1) k) (hnear : value ends.2 < w) :
    ∃ n ≤ 1, (2 : ℤ) ^ n ≤ budget maxBins ends ∧ value ends.2 < (k + 2 ^ n) * w := by
  have hk_least := hk.bounds.1
  by_cases hstraddles : value ends.1 < 0 ∧ 0 ≤ value ends.2
  · have hbudget := two_le_budget hbins hstraddles.1 hstraddles.2
    have hroom : 1 ≤ k + 2 ^ 1 := by omega
    refine ⟨1, le_rfl, by exact_mod_cast hbudget, hnear.trans_le ?_⟩
    exact le_mul_of_one_le_left hpos.le (by exact_mod_cast hroom)
  · have hbudget := le_budget hbins ends
    refine ⟨0, zero_le_one, by rw [pow_zero]; omega, ?_⟩
    rcases hk with ⟨-, hk_nonneg, -⟩ | ⟨hneg, -, -⟩
    · have hroom : 1 ≤ k + 2 ^ 0 := by omega
      exact hnear.trans_le (le_mul_of_one_le_left hpos.le (by exact_mod_cast hroom))
    · -- Both ends are below zero, where the only bucket ends.
      have hgreatest : value ends.2 < 0 := not_le.1 fun hnonneg => hstraddles ⟨hneg, hnonneg⟩
      have hroom : 0 ≤ k + 2 ^ 0 := by omega
      exact hgreatest.trans_le (mul_nonneg (by exact_mod_cast hroom) hpos.le)

section

variable {ends : Float × Float} {maxBins : ℕ} (hbins : 1 ≤ maxBins)
  (hleast : ends.1.isFinite = true) (hgreatest : ends.2.isFinite = true)
  (hgreatest_le : |value ends.2| ≤ 1000) {width : Float} (hwidth : IsSound width)
include hbins hleast hgreatest hgreatest_le hwidth

/-- A width that is larger than both ends makes one bucket, or two around zero. -/
theorem keepsBudget_of_near (hexact : IsExact width) (hnear : |value ends.1| < value width)
    (hnear' : |value ends.2| < value width) :
    ∃ count, KeepsBudget (aligned ends.1 width) maxBins ends count := by
  obtain ⟨hregular, k, hstart, hk⟩ := exists_startsAround hleast hwidth hnear hexact
  obtain ⟨i, hi, hcount⟩ := exists_bucketCount hregular hgreatest hgreatest_le
  have hpos := hwidth.pos
  obtain ⟨n, hn, hbudget, hroom⟩ := exists_room hbins hpos hk (abs_lt.1 hnear').2
  have hbudget_pos := le_budget hbins ends
  refine ⟨_, hregular, hstart.trans_le (hk.mul_le hnear), hcount, ?_, ?_⟩
  · rintro (hfew | hlifted)
    · exact hfew.trans ((le_max_left _ _).trans hbudget_pos)
    -- The number is not below its bucket, so its bucket is one with room for it.
    unfold IsLifted at hlifted
    rw [not_lt, hstart, hi] at hlifted
    change k * value width + i * value width ≤ value ends.2 at hlifted
    rw [← add_mul] at hlifted
    have hlt : i < 2 ^ n := by
      have hbefore := lt_of_mul_lt_mul_right (hlifted.trans_lt hroom) hpos.le
      exact_mod_cast lt_of_add_lt_add_left hbefore
    omega
  · -- The slack adds one bucket at most, however the quotient is rounded.
    have hpast := value_bucket_le_two_pow hregular hgreatest hgreatest_le hn (by
      rw [hstart]
      change value ends.2 ≤ k * value width + 2 ^ n * value width
      rw [← add_mul]
      exact hroom.le)
    rw [hi] at hpast
    have hle : i ≤ 2 ^ n := by exact_mod_cast hpast
    omega

/-- Buckets that are not widened any more are few enough. -/
theorem keepsBudget_of_settled (hleast_le : |value ends.1| ≤ 1000)
    (hsettled : IsSettled ends.1 ends.2 maxBins (aligned ends.1 width))
    (hnarrow : value width < 1 / 2000 → 1 / 1000 ≤ value ends.2 - value ends.1) :
    ∃ count, KeepsBudget (aligned ends.1 width) maxBins ends count := by
  by_cases hreach : reach ends.1 ends.2 < width
  · obtain ⟨hnear, hnear'⟩ :=
      (reach_lt_iff hleast hleast_le hgreatest hgreatest_le hwidth.isFinite).1 hreach
    apply keepsBudget_of_near hbins hleast hgreatest hgreatest_le hwidth _ hnear hnear'
    apply hwidth.isExact
    -- A narrow width cannot be larger than both ends of a range.
    by_contra hnot
    have hspan := hnarrow (not_le.1 hnot)
    rw [abs_lt] at hnear hnear'
    linarith
  · obtain ⟨count, hcount, hsettled⟩ := hsettled
    have hmost := le_of_not_reach_lt hleast hleast_le hgreatest hgreatest_le hwidth.isFinite hreach
    have hbudget := (hsettled.resolve_right hreach).trans (le_budget hbins ends)
    exact ⟨count, isRegular_of_isSound hleast hleast_le hwidth,
      (start_bounds hwidth.least hwidth.isFinite hleast hleast_le hmost).2.1, hcount,
      fun _ => hbudget, hbudget.trans (Nat.le_succ _)⟩

end

/-- The first width is on the ladder or below it, and not narrow without a range. -/
theorem exists_niceWidth_of_range {ends : Float × Float} {maxBins : ℕ} (hbins : maxBins ≤ 1000)
    (hleast : ends.1.isFinite = true) (hleast_le : |value ends.1| ≤ 1000)
    (hgreatest : ends.2.isFinite = true) (hgreatest_le : |value ends.2| ≤ 1000)
    (hrange : value ends.1 = value ends.2 ∨ 1 / 1000 ≤ value ends.2 - value ends.1) :
    ∃ width, niceWidth (ends.2 - ends.1) maxBins = .ok width ∧ StartsLadder width ∧
      (value width < 1 / 2000 → 1 / 1000 ≤ value ends.2 - value ends.1) := by
  have hspan_le : |value ends.2 - value ends.1| ≤ 2000 := by
    rw [abs_le] at hleast_le hgreatest_le ⊢
    constructor <;> linarith
  have hspan := Binary64.nearest_sub hgreatest hleast
    (Binary64.abs_lt_of_le hspan_le (by norm_num))
  rcases hrange with heq | hapart
  · -- Without a span the first width is one.
    rw [heq, sub_self] at hspan
    have hzero := hspan.value_eq_of_isDouble Binary64.isDouble_zero
    have hone : 1.0 = rung 29 := by decide +kernel
    refine ⟨1.0, niceWidth_of_not_pos (fun hpos => hpos.2.ne' hzero) _, ?_⟩
    rw [hone, rung_narrow_iff 29 (by norm_num)]
    exact ⟨.inl ⟨29, by norm_num, rfl⟩, fun hlow => absurd hlow (by norm_num)⟩
  · have hdouble : Binary64.IsDouble (1 / 1024) := ⟨1, -10, by norm_num, by norm_num, by norm_num⟩
    have hle : value ends.1 ≤ value ends.2 := by linarith
    obtain ⟨width, hwidth, hladder⟩ := exists_niceWidth hspan.isFinite
      (hspan.le_value hdouble (by linarith))
      (span_lt hleast hleast_le hgreatest hgreatest_le hle) hbins
    exact ⟨width, hwidth, hladder, fun _ => hapart⟩

/-! ### How many labels there are -/

/-- The number is counted for a bucket before the first one. -/
def IsDropped (b : Binning) (x : Float) : Prop :=
  value (b.bucket x) < 0

instance (b : Binning) (x : Float) : Decidable (IsDropped b x) :=
  inferInstanceAs (Decidable (_ < _))

section

variable {cells : List Cell} {ends : Float × Float}
  (hspans : Spans (cells.filterMap Cell.finite?) ends)
  (hsmall : ∀ x ∈ cells.filterMap Cell.finite?, |value x| ≤ 1000)
include hspans hsmall

/-- No more labels are used than buckets are counted, and one that is before the
    first if the least number is dropped. -/
theorem length_labels_le_bucketCount {b : Binning} (h : IsRegular b)
    (hstart : value b.start ≤ value ends.1 + value b.width) {count : ℕ}
    (hcount : b.bucketCount ends.2 = .ok count) :
    (b.labels cells).length ≤ count + 1 ∧
      (¬ IsDropped b ends.1 → (b.labels cells).length ≤ count) := by
  have hleast := isFinite_of_mem _ hspans.least_mem
  have hgreatest := isFinite_of_mem _ hspans.greatest_mem
  have hleast_le := hsmall _ hspans.least_mem
  have hgreatest_le := hsmall _ hspans.greatest_mem
  obtain ⟨first, hfirst, -⟩ := exists_bucketCount h hleast hleast_le
  obtain ⟨last, hlast, hcount'⟩ := exists_bucketCount h hgreatest hgreatest_le
  rw [hcount, Except.ok.injEq] at hcount'
  have hlength := length_labels_le h hspans hsmall hfirst hlast
  have hfirst_least : -1 ≤ first := by
    have hbefore := neg_one_le_value_bucket h hleast hleast_le hstart
    rw [hfirst] at hbefore
    exact_mod_cast hbefore
  have hle : first ≤ last := by
    have hbucket := value_bucket_le h hleast hgreatest hleast_le hgreatest_le
      (hspans.least_le _ hspans.greatest_mem)
    rw [hfirst, hlast] at hbucket
    exact_mod_cast hbucket
  constructor
  · omega
  · intro hdropped
    unfold IsDropped at hdropped
    rw [hfirst, not_lt] at hdropped
    have hnonneg : 0 ≤ first := by exact_mod_cast hdropped
    omega

/-- Automatic buckets for numbers with no range, or with one that is not tiny. -/
theorem exists_keepsBudget {maxBins : ℕ} (hbins : 1 ≤ maxBins) (hbins' : maxBins ≤ 1000)
    (hends : range? (cells.filterMap Cell.finite?) = some ends)
    (hrange : value ends.1 = value ends.2 ∨ 1 / 1000 ≤ value ends.2 - value ends.1) :
    ∃ b count, fit cells none maxBins = .ok (some b) ∧ KeepsBudget b maxBins ends count := by
  have hleast := isFinite_of_mem _ hspans.least_mem
  have hgreatest := isFinite_of_mem _ hspans.greatest_mem
  have hleast_le := hsmall _ hspans.least_mem
  have hgreatest_le := hsmall _ hspans.greatest_mem
  obtain ⟨first, hfirst, hladder, hnarrow⟩ :=
    exists_niceWidth_of_range hbins' hleast hleast_le hgreatest hgreatest_le hrange
  obtain ⟨width, hwidth, hwidth_narrow, hwidened, hsettled⟩ :=
    exists_settled hleast hleast_le hgreatest hgreatest_le maxBins hladder
  obtain ⟨count, hbudget⟩ := keepsBudget_of_settled hbins hleast hgreatest hgreatest_le hwidth
    hleast_le hsettled fun hlow => hnarrow (hwidth_narrow hlow)
  refine ⟨aligned ends.1 width, count, ?_, hbudget⟩
  rw [fit, hends]
  refine bind_eq_ok_iff.2 ⟨first, hfirst, bind_eq_ok_iff.2 ⟨_, ?_, bind_eq_ok_iff.2 ⟨_, hwidened, rfl⟩⟩⟩
  exact align_of_pos hladder.isSound.isFinite hladder.isSound.pos

end

/-- There are numbers, at most a thousand in size. They are all the same, or some
    are not too close to each other to be told apart. -/
structure IsEveryday (cells : List Cell) : Prop where
  isSome : ∃ cell ∈ cells, cell.finite?.isSome
  small : ∀ x ∈ cells.filterMap Cell.finite?, |value x| ≤ 1000
  range : (∀ x ∈ cells.filterMap Cell.finite?, ∀ y ∈ cells.filterMap Cell.finite?,
      value x = value y) ∨
    ∃ x ∈ cells.filterMap Cell.finite?, ∃ y ∈ cells.filterMap Cell.finite?,
      1 / 1000 ≤ value y - value x

/-- Automatic buckets for everyday numbers: there are not more labels than
    buckets, nor more than there may be, unless the slack moves an end of buckets
    that are too many. Even then one bucket more is counted at most, and one label
    more is used. -/
theorem labels_le_budget {cells : List Cell} (h : IsEveryday cells) {maxBins : ℕ}
    (hbins : 1 ≤ maxBins) (hbins' : maxBins ≤ 1000) :
    ∃ b ends count, fit cells none maxBins = .ok (some b) ∧
      Spans (cells.filterMap Cell.finite?) ends ∧ b.bucketCount ends.2 = .ok count ∧
      count ≤ budget maxBins ends + 1 ∧ (b.labels cells).length ≤ count + 1 ∧
      (¬ IsDropped b ends.1 → (b.labels cells).length ≤ count ∧
        (count ≤ maxBins ∨ ¬ IsLifted b ends.2 →
          (b.labels cells).length ≤ budget maxBins ends)) := by
  obtain ⟨ends, hends, hspans⟩ := exists_range h.isSome
  have hrange : value ends.1 = value ends.2 ∨ 1 / 1000 ≤ value ends.2 - value ends.1 := by
    rcases h.range with hsame | ⟨y, hy, z, hz, hapart⟩
    · exact .inl (hsame _ hspans.least_mem _ hspans.greatest_mem)
    · have hleast := hspans.least_le y hy
      have hgreatest := hspans.le_greatest z hz
      exact .inr (by linarith)
  obtain ⟨b, count, hfit, hbudget⟩ :=
    exists_keepsBudget hspans h.small hbins hbins' hends hrange
  obtain ⟨hlength_succ, hlength⟩ := length_labels_le_bucketCount hspans h.small hbudget.isRegular
    hbudget.start_le hbudget.bucketCount_eq
  refine ⟨b, ends, count, hfit, hspans, hbudget.bucketCount_eq, hbudget.count_le_succ,
    hlength_succ, ?_⟩
  intro hdropped
  exact ⟨hlength hdropped, fun hsettled => (hlength hdropped).trans (hbudget.count_le hsettled)⟩

/-- Numbers on both sides of zero, and no number. -/
def signedCells : List Cell := [.num (-1.0), .null, .num 0.25, .num 1.0]

/-- Two labels where one bucket is asked for, around zero. -/
theorem labels_le_budget_of_signed : IsEveryday signedCells ∧
    ∃ b ends, fit signedCells none 1 = .ok (some b) ∧
      Spans (signedCells.filterMap Cell.finite?) ends ∧ ¬ IsDropped b ends.1 ∧
      ¬ IsLifted b ends.2 ∧ (b.labels signedCells).length ≤ budget 1 ends := by
  have heveryday : IsEveryday signedCells :=
    ⟨by decide +kernel, by decide +kernel, .inr (by decide +kernel)⟩
  have hends : ∃ b ∈ (fit signedCells none 1).toOption.join,
      ∀ x ∈ signedCells.filterMap Cell.finite?, ¬ IsDropped b x ∧ ¬ IsLifted b x := by
    decide +kernel
  obtain ⟨b', hmem, hends⟩ := hends
  have hfit' := eq_ok_of_mem_join hmem
  obtain ⟨b, ends, count, hfit, hspans, -, -, -, hlabels⟩ :=
    labels_le_budget heveryday (le_refl 1) (by norm_num)
  rw [hfit', Except.ok.injEq, Option.some.injEq] at hfit
  subst hfit
  have hdropped := (hends _ hspans.least_mem).1
  have hlifted := (hends _ hspans.greatest_mem).2
  exact ⟨heveryday, b', ends, hfit', hspans, hdropped, hlifted,
    (hlabels hdropped).2 (.inr hlifted)⟩

/-- One, and a number that is slightly below ten. -/
def nearlyTenCells : List Cell := [.num 1.0, .num 9.9999999999]

/-- Two numbers, the lesser of which is slightly below a multiple of the width. -/
def belowCells : List Cell := [.num (-666.760000000002), .num (-666.7586)]

/-- The greatest number may be counted for a second bucket where there may be
    one, and the least one may have a label that is not counted. -/
theorem not_labels_le_budget :
    (IsEveryday nearlyTenCells ∧ ∃ b ends, fit nearlyTenCells none 1 = .ok (some b) ∧
      Spans (nearlyTenCells.filterMap Cell.finite?) ends ∧
      budget 1 ends < (b.labels nearlyTenCells).length) ∧
    IsEveryday belowCells ∧ ∃ b ends count, fit belowCells none 1 = .ok (some b) ∧
      Spans (belowCells.filterMap Cell.finite?) ends ∧ b.bucketCount ends.2 = .ok count ∧
      count < (b.labels belowCells).length := by
  constructor
  · have heveryday : IsEveryday nearlyTenCells :=
      ⟨by decide +kernel, by decide +kernel, .inr (by decide +kernel)⟩
    have hpositive : ∀ x ∈ nearlyTenCells.filterMap Cell.finite?, ¬ value x < 0 := by
      decide +kernel
    have hlabels : ∃ b ∈ (fit nearlyTenCells none 1).toOption.join,
        b.labels nearlyTenCells = ["[0-10]", "[10-20]"] := by decide +kernel
    obtain ⟨b, hmem, hlabels⟩ := hlabels
    obtain ⟨ends, -, hspans⟩ := exists_range heveryday.isSome
    refine ⟨heveryday, b, ends, eq_ok_of_mem_join hmem, hspans, ?_⟩
    have hbudget : budget 1 ends = 1 :=
      if_neg fun hstraddles => hpositive _ hspans.least_mem hstraddles.2.1
    rw [hbudget, hlabels]
    decide
  · have heveryday : IsEveryday belowCells :=
      ⟨by decide +kernel, by decide +kernel, .inr (by decide +kernel)⟩
    have hcount : ∃ b ∈ (fit belowCells none 1).toOption.join,
        ∀ x ∈ belowCells.filterMap Cell.finite?,
          ∃ count ∈ (b.bucketCount x).toOption, count < (b.labels belowCells).length := by
      decide +kernel
    obtain ⟨b, hmem, hcount⟩ := hcount
    obtain ⟨ends, -, hspans⟩ := exists_range heveryday.isSome
    obtain ⟨count, hcount, hlt⟩ := hcount _ hspans.greatest_mem
    exact ⟨heveryday, b, ends, count, eq_ok_of_mem_join hmem, hspans,
      eq_ok_of_mem_toOption hcount, hlt⟩

end PlotGrammar.Binning
