import PlotGrammar.Proofs.Binary64.Counts
import PlotGrammar.Proofs.Binning.Starts

/-! # Climbing the ladder

  Regular buckets can be counted (`exists_bucketCount`), and the buckets of
  every sound width are regular (`isRegular_of_isSound`). So making a width
  larger never overflows, and few widenings are enough to get beyond both ends,
  or to buckets that are few enough (`exists_settled`).
-/

namespace PlotGrammar.Binning

open Binary64 (value)

/-- Buckets are counted from the start on, and there is always one. -/
theorem exists_bucketCount {b : Binning} (h : IsRegular b) {x : Float} (hx : x.isFinite = true)
    (hsmall : |value x| ≤ 1000) :
    ∃ i : ℤ, value (b.bucket x) = i ∧ b.bucketCount x = .ok (i.toNat + 1) := by
  obtain ⟨hposition, hnearest⟩ := nearest_position h hx hsmall
  obtain ⟨hfinite, hvalue⟩ := value_bucket h hx hsmall
  refine ⟨_, hvalue, ?_⟩
  have hmost : ⌊value ((x - b.start) / b.width + slack)⌋ < 2 ^ 53 := by
    have hsize := hnearest.abs_value_le
    have hle := (le_abs_self _).trans hsize
    rw [Int.floor_lt]
    norm_num
    linarith
  generalize ⌊value ((x - b.start) / b.width + slack)⌋ = i at hvalue hmost
  have hroom : 2 ^ 53 < Binary64.maxCount := by decide
  have hcount : Binary64.toCount (b.bucket x) = i.toNat := by
    by_cases hneg : i < 0
    · -- A position before the first bucket counts as the first one.
      have hneg' : value (b.bucket x) < 0 := by
        rw [hvalue]
        exact_mod_cast hneg
      rw [Binary64.toCount_of_neg hneg']
      omega
    · obtain ⟨n, rfl⟩ := Int.eq_ofNat_of_zero_le (not_lt.1 hneg)
      rw [Binary64.toCount_of_value hfinite (n := n) (by rw [hvalue, Int.cast_natCast]),
        Int.toNat_natCast]
      apply Nat.min_eq_left
      omega
  unfold bucketCount
  dsimp only
  rw [hcount, if_pos (by omega)]

/-- Buckets that are not widened any more: they are few enough, or the width is
    larger than both ends. -/
def IsSettled (least greatest : Float) (maxBins : ℕ) (b : Binning) : Prop :=
  ∃ count, b.bucketCount greatest = .ok count ∧
    (count ≤ max maxBins 1 ∨ reach least greatest < b.width)

section

variable {least greatest : Float} (hleast : least.isFinite = true) (hleast_le : |value least| ≤ 1000)
include hleast hleast_le

/-- A sound width makes regular buckets: it is not large, or it is exact. -/
theorem isRegular_of_isSound {width : Float} (hwidth : IsSound width) :
    IsRegular (aligned least width) := by
  by_cases hmost : value width ≤ 1000
  · exact isRegular_aligned hwidth.least hwidth.isFinite hleast hleast_le hmost
  · rw [not_le] at hmost
    exact (exists_startsAround hleast hwidth (hleast_le.trans_lt hmost)
      (hwidth.isExact (by linarith))).1

variable (hgreatest : greatest.isFinite = true) (hgreatest_le : |value greatest| ≤ 1000)
  (maxBins : ℕ)
include hgreatest hgreatest_le

/-- Climbing stops at a rung, at the latest where the width is beyond all numbers. -/
theorem exists_rung (steps : ℕ) {n : ℕ} (hn : n < 57) (hsteps : 39 ≤ n + steps) :
    ∃ m < 57, n ≤ m ∧
      widened least greatest maxBins steps (aligned least (rung n)) = .ok (aligned least (rung m)) ∧
      IsSettled least greatest maxBins (aligned least (rung m)) := by
  -- Each widening climbs a rung, and from rung 39 on the width is beyond both ends.
  induction steps generalizing n with
  | zero =>
    have hwide := rung_wide n hn (by omega)
    have hreach : reach least greatest < rung n := by
      rw [reach_lt_iff hleast hleast_le hgreatest hgreatest_le (rung_bounds n hn).1]
      exact ⟨hleast_le.trans_lt hwide, hgreatest_le.trans_lt hwide⟩
    have hregular := isRegular_of_isSound hleast hleast_le (isSound_rung hn)
    obtain ⟨_, -, hcount⟩ := exists_bucketCount hregular hgreatest hgreatest_le
    exact ⟨n, hn, le_refl n, rfl, _, hcount, .inr hreach⟩
  | succ steps ih =>
    have hregular := isRegular_of_isSound hleast hleast_le (isSound_rung hn)
    obtain ⟨_, -, hcount⟩ := exists_bucketCount hregular hgreatest hgreatest_le
    rw [widened_succ hcount]
    split
    · next hsettled => exact ⟨n, hn, le_refl n, rfl, _, hcount, hsettled⟩
    · next hmore =>
      -- The width is still within the numbers, so there is a rung above it.
      have hwidth := le_of_not_reach_lt hleast hleast_le hgreatest hgreatest_le
        (rung_bounds n hn).1 (not_or.1 hmore).2
      have hlow : n < 39 := by
        by_contra hhigh
        exact absurd (rung_wide n hn (not_lt.1 hhigh)) (not_lt.2 hwidth)
      obtain ⟨m, hm, hle, hwidened, hsettled⟩ := ih (n := n + 1) (by omega) (by omega)
      refine ⟨m, hm, by omega, ?_, hsettled⟩
      have hnext := isSound_rung (n := n + 1) (by omega)
      have hwiden : widen (aligned least (rung n)).width = rung (n + 1) := widen_rung n hlow
      rw [hwiden, align_of_pos hnext.isFinite hnext.pos]
      exact hwidened

/-- The widenings that there may be are enough for every first width, and do
    not end with a narrow width unless they start with one. -/
theorem exists_settled {width : Float} (hwidth : StartsLadder width) :
    ∃ width', IsSound width' ∧ (value width' < 1 / 2000 → value width < 1 / 2000) ∧
      widened least greatest maxBins maxWidenings (aligned least width) =
        .ok (aligned least width') ∧
      IsSettled least greatest maxBins (aligned least width') := by
  rcases hwidth with ⟨n, hn, rfl⟩ | ⟨n, hn, hbelow⟩
  · obtain ⟨m, hm, hle, hwidened, hsettled⟩ := exists_rung hleast hleast_le hgreatest hgreatest_le
      maxBins maxWidenings hn (by unfold maxWidenings; omega)
    refine ⟨rung m, isSound_rung hm, ?_, hwidened, hsettled⟩
    rw [rung_narrow_iff m hm, rung_narrow_iff n hn]
    omega
  · -- A first width that is no rung is one widening below the ladder.
    have hsound := hbelow.isSound
    obtain ⟨_, -, hcount⟩ :=
      exists_bucketCount (isRegular_of_isSound hleast hleast_le hsound) hgreatest hgreatest_le
    unfold maxWidenings
    rw [widened_succ hcount]
    split
    · next hsettled => exact ⟨width, hsound, id, rfl, _, hcount, hsettled⟩
    · obtain ⟨m, hm, -, hwidened, hsettled⟩ := exists_rung hleast hleast_le hgreatest hgreatest_le
        maxBins 63 (n := n) (by omega) (by omega)
      have hnext := isSound_rung (n := n) (by omega)
      have hwiden : widen (aligned least width).width = rung n := hbelow.widen_eq
      rw [hwiden, align_of_pos hnext.isFinite hnext.pos]
      exact ⟨rung m, isSound_rung hm, fun _ => hbelow.narrow, hwidened, hsettled⟩

end

end PlotGrammar.Binning
