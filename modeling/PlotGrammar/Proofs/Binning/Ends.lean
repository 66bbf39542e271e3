import PlotGrammar.Proofs.Binning.Buckets
import PlotGrammar.Proofs.Binning.Labels

/-! # The ends of buckets

  The ends of a bucket are the doubles nearest to two points one width apart
  (`InBucket.nearest_lower`, `InBucket.nearest_upper`), and they are written
  with little error (`InBucket.written_bounds`). So neighbours share an end.
-/

namespace PlotGrammar.Binning

open Binary64 (value Nearest)
open Decimal (written)

section

variable {b : Binning} {x y : Float} {k : ℤ} (hw : Moderate b.width)
include hw

/-- The first point is one width from zero. -/
theorem abs_point_one_sub_le : |point b.width 1 - value b.width| ≤ value b.width / 2 ^ 52 := by
  have hpoint := abs_point_sub_le hw 1
  rwa [Int.cast_one, one_mul, abs_of_pos hw.pos] at hpoint

/-! ### Points around a number -/

theorem InBucket.nearest_lower (h : InBucket b x k) : Nearest (point b.width k) (b.ends x).1 :=
  nearest_roundTo (places_le hw.least) h.near_lower

theorem InBucket.nearest_upper (h : InBucket b x k) :
    Nearest (point b.width (k + 1)) (b.ends x).2 :=
  nearest_roundTo (places_le hw.least) h.near_upper

/-- A bucket ends where the next one starts. -/
theorem InBucket.ends_eq (hx : InBucket b x k) (hy : InBucket b y (k + 1)) :
    (b.ends x).2 = (b.ends y).1 :=
  roundTo_congr (places_le hw.least) hx.near_upper hy.near_lower

/-! ### Written ends -/

/-- The double nearest to a point is written with little error. -/
theorem abs_written_sub_point_le {z : Float} (h : Nearest (point b.width k) z)
    (hsmall : |point b.width k| ≤ 1000 + value b.width + 1 / 10 ^ 4) :
    |written .up z - point b.width k| ≤ 1.138e-10 * value b.width := by
  have hnear := le_of_near_line (fun _ => h.error) hw.least hw.most (by linarith)
  have hmost := hw.most
  have hvalue : |value z| ≤ 1000 + value b.width + 1 / 1000 := by
    rw [abs_le] at hnear hsmall ⊢
    constructor <;> linarith
  have hwritten := le_of_near_line (fun _ => Decimal.abs_written_sub_le .up) hw.least hw.most hvalue
  rw [abs_le] at hnear hwritten ⊢
  constructor <;> linarith

section

variable (h : InBucket b x k) (hsmall : |value x| ≤ 1000)
include h hsmall

theorem InBucket.abs_point_le :
    |point b.width k| ≤ 1000 + value b.width + 1 / 10 ^ 4 ∧
      |point b.width (k + 1)| ≤ 1000 + value b.width + 1 / 10 ^ 4 := by
  have hone := abs_point_one_sub_le hw
  have hle := h.le
  have hlt := h.lt
  have hpos := hw.pos
  have hmost := hw.most
  rw [point_add] at hlt ⊢
  rw [abs_le] at hone hsmall
  constructor
  · exact abs_le.2 ⟨by linarith, by linarith⟩
  · exact abs_le.2 ⟨by linarith, by linarith⟩

/-- The lower end as it is written. -/
theorem InBucket.abs_lower_sub_le :
    |written .up (b.ends x).1 - point b.width k| ≤ 1.138e-10 * value b.width :=
  abs_written_sub_point_le hw (h.nearest_lower hw) (h.abs_point_le hw hsmall).1

/-- The upper end as it is written. -/
theorem InBucket.abs_upper_sub_le :
    |written .up (b.ends x).2 - point b.width (k + 1)| ≤ 1.138e-10 * value b.width :=
  abs_written_sub_point_le hw (h.nearest_upper hw) (h.abs_point_le hw hsmall).2

/-- The written ends are around the number, and one width apart. -/
theorem InBucket.written_bounds :
    written .up (b.ends x).1 - 2e-9 * value b.width ≤ value x ∧
    value x < written .up (b.ends x).2 + 1e-9 * value b.width ∧
    |written .up (b.ends x).2 - written .up (b.ends x).1 - value b.width| ≤
      1e-9 * value b.width := by
  have hpos := hw.pos
  have hone := abs_point_one_sub_le hw
  have hle := h.le
  have hlt := h.lt
  have hlower := h.abs_lower_sub_le hw hsmall
  have hupper := h.abs_upper_sub_le hw hsmall
  rw [abs_le] at hone hlower hupper ⊢
  rw [point_add] at hlt hupper
  refine ⟨?_, ?_, ?_, ?_⟩ <;> linarith

end

/-- The label of a number says the ends of its bucket. -/
theorem InBucket.labelEnds? (h : InBucket b x k) {cell : Cell} (hcell : cell.finite? = some x) :
    labelEnds? (b.label cell) = some (written .up (b.ends x).1, written .up (b.ends x).2) :=
  labelEnds?_label hcell (h.nearest_lower hw).isFinite (h.nearest_upper hw).isFinite

end

end PlotGrammar.Binning
