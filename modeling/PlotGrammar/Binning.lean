import PlotGrammar.Cell
import PlotGrammar.Decimal.Logarithm
import PlotGrammar.Failure

/-! # Binning

  Buckets of equal width, from a whole multiple of the width on. A bucket
  holds its lower end and not its upper one, and is labelled `[lower-upper]`.

  - `fit` chooses the buckets for some cells, by a given width or by the most
    buckets that there may be.
  - `niceWidth` is the smallest of `1`, `2` and `5` times a power of ten that
    cuts a span into few enough parts.

  Counts are of 64 bits and doubles may become zero or infinite on the way, so
  some cells have no buckets although they have numbers. Then the cause is given
  in place of the buckets.
-/

namespace PlotGrammar

/-- The width of the buckets and the lower end of the first. -/
structure Binning where
  width : Float
  start : Float

namespace Binning

/-- The slack by which a number slightly below the end of a bucket counts as
    being on it. -/
def slack : Float := 1e-9

/-- How often a width is made larger at most. -/
def maxWidenings : Nat := 64

/-! ### Widths -/

/-- The decimal places that a width other than zero needs, and one more. -/
def places (width : Float) : Nat :=
  if width.isFinite && 0.0 < width then (-Decimal.floorLog width).toNat + 1 else 1

/-- Ten to the places of a width. -/
def scale (width : Float) : Float := Binary64.power 10.0 (places width)

/-- Round a number to the places of a width, and `-0.0` to `0.0`. -/
def roundTo (width x : Float) : Float :=
  let rounded := Binary64.round (x * scale width) / scale width
  if rounded == 0.0 then 0.0 else rounded

/-- The next nice width: `1`, `2`, `5` and `10` follow each other. -/
def widen (width : Float) : Float :=
  let scale := Decimal.powerOfTen (Decimal.floorLog width)
  let mantissa := Binary64.round (width / scale)
  if mantissa < 2.0 then 2.0 * scale
  else if mantissa < 5.0 then 5.0 * scale
  else 10.0 * scale

/-- Into how many parts a span is cut, as a whole double. -/
def parts (span width : Float) : Float := Binary64.ceil (span / width)

/-- After how many steps a search for a width counts as endless. A search that
    ends at all takes a few steps, and never more than twenty-two. -/
def maxTenfolds : Nat := 1000

/-- Make a width ten times larger until a span has at most `most` parts. -/
def tenfold (span most : Float) : Nat → Float → Except Abort Float
  | 0, _ => .error .endless
  | steps + 1, width =>
    if most < parts span width then tenfold span most steps (width * 10.0) else .ok width

/-- The first guess of a width for a span: a power of ten, so that its halves and
    fifths are nice widths too. Below the least double it is zero. -/
def guess (span most : Float) : Float :=
  Decimal.powerOfTen (Decimal.roundLog span - Decimal.ceilLog most)

/-- The smallest nice width that cuts a span into at most `maxBins` parts;
    one if the span is not positive and finite. -/
def niceWidth (span : Float) (maxBins : Nat) : Except Abort Float :=
  if !(span.isFinite && 0.0 < span) then .ok 1.0
  else do
    let most := Float.ofNat (max maxBins 1)
    let width ← tenfold span most maxTenfolds (guess span most)
    if parts span (width / 5.0) ≤ most then return width / 5.0
    else if parts span (width / 2.0) ≤ most then return width / 2.0
    else return width

/-! ### Fitting -/

/-- The buckets of a width other than zero that start at or just below a number. -/
def aligned (least width : Float) : Binning :=
  let start := Binary64.floor (least / width + slack) * width
  ⟨width, roundTo width start⟩

/-- The buckets of any width. A zero has no first decimal place, so counting the
    places up to it overflows. -/
def align (least width : Float) : Except Abort Binning :=
  if width == 0.0 then .error .overflow else .ok (aligned least width)

/-- The position of the bucket that holds a number, as a whole double. -/
def bucket (b : Binning) (x : Float) : Float :=
  Binary64.floor ((x - b.start) / b.width + slack)

/-- How many buckets there are up to the one that holds a number. -/
def bucketCount (b : Binning) (greatest : Float) : Except Abort Nat :=
  let before := Binary64.toCount (b.bucket greatest)
  if before < Binary64.maxCount then .ok (before + 1) else .error .overflow

/-- Make the width larger until there are few enough buckets, or until it is
    larger than both ends, when the start no longer moves. -/
def widened (least greatest : Float) (maxBins : Nat) : Nat → Binning → Except Abort Binning
  | 0, b => .ok b
  | steps + 1, b => do
    -- Beyond this width the first bucket starts at zero or at minus the width.
    let reach := if greatest.abs < least.abs then least.abs else greatest.abs
    let count ← b.bucketCount greatest
    if count ≤ max maxBins 1 || reach < b.width then return b
    else
      let wider ← align least (widen b.width)
      widened least greatest maxBins steps wider

/-- The least and the greatest of the numbers, if there are any. -/
def range? : List Float → Option (Float × Float)
  | [] => none
  | x :: xs => some (xs.foldl (fun ends y =>
      (if y < ends.1 then y else ends.1, if ends.2 < y then y else ends.2)) (x, x))

/-- The buckets for the finite numbers among the cells, if there are any: of
    the given width, or else of the smallest nice width that needs at most
    `maxBins` buckets. Numbers on both sides of zero need two in any case. -/
def fit (cells : List Cell) (width : Option Float) (maxBins : Nat) :
    Except Abort (Option Binning) :=
  match range? (cells.filterMap Cell.finite?) with
  | none => .ok none
  | some (least, greatest) => do
    match width with
    | some width => return some (← align least width)
    | none =>
      let first ← align least (← niceWidth (greatest - least) maxBins)
      return some (← widened least greatest maxBins maxWidenings first)

/-! ### Labels -/

/-- The ends of the bucket that holds a number. -/
def ends (b : Binning) (x : Float) : Float × Float :=
  let lower := roundTo b.width (b.start + b.bucket x * b.width)
  (lower, roundTo b.width (lower + b.width))

/-- The label of the bucket of a cell; null for anything but a finite number. -/
def label (b : Binning) (cell : Cell) : Cell :=
  match cell.finite? with
  | none => .null
  | some x =>
    .text ("[" ++ displayNumber (b.ends x).1 ++ "-" ++ displayNumber (b.ends x).2 ++ "]")

end Binning

end PlotGrammar
