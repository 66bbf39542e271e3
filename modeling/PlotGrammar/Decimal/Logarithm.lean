import PlotGrammar.Decimal.Basic

/-! # Decimal logarithms of doubles

  Rounded decimal logarithms and powers of ten, without floating logarithms.
  A logarithm is understood as rounded to double precision first, so a number
  a hair below a power of ten counts as that power.

  - `reaches x t` says that the logarithm of `x`, so rounded, is at least `t/2`.
  - `exceeds x t` says that it is more than `t/2`.
-/

namespace PlotGrammar.Decimal

/-! ### Comparison with halves -/

/-- Twice the natural logarithm of ten, over `10^12`. -/
def twiceLogTen : Nat := 4605170185988

/-- The gap of doubles next to `t/2`, as a multiple of `2^-55`: the gap below
    the number if `below`, else the gap above it. Next to zero it vanishes. -/
def gap (below : Bool) (t : Int) : Nat :=
  let size := t.natAbs
  if size = 0 then 0
  else
    let towardZero := decide (0 < t) == below
    if towardZero && size == Nat.pow 2 size.log2 then Nat.pow 2 size.log2
    else Nat.pow 2 (size.log2 + 1)

/-- One, in the scale of `margin`. -/
def marginOne : Nat := Nat.pow 10 12 * Nat.pow 2 55

/-- The relative change of a square that moves its logarithm by the rounding
    of the half logarithm `t/2`. -/
def margin (below : Bool) (t : Int) : Nat := twiceLogTen * gap below t

/-- `10^t` as a ratio of naturals. -/
def tenTo (t : Int) : Nat × Nat := ratio ⟨1, t⟩

/-- Whether the rounded decimal logarithm of a positive double is at least `t/2`. -/
def reaches (x : Float) (t : Int) : Bool :=
  let power := tenTo t
  decide (power.1 * Nat.pow Binary64.one 2 * marginOne
    ≤ Nat.pow (Binary64.units x) 2 * (marginOne + margin true t) * power.2)

/-- Whether the rounded decimal logarithm of a positive double is above `t/2`. -/
def exceeds (x : Float) (t : Int) : Bool :=
  let power := tenTo t
  decide (power.1 * Nat.pow Binary64.one 2 * (marginOne + margin false t)
    < Nat.pow (Binary64.units x) 2 * marginOne * power.2)

/-! ### Rounded logarithms of positive doubles -/

/-- The rounded logarithm, rounded down. -/
def floorLog (x : Float) : Int :=
  -- Only a number just below the next power of ten is lifted by the rounding.
  let e := order (Binary64.units x) Binary64.one
  if reaches x (2 * (e + 1)) then e + 1 else e

/-- The rounded logarithm, rounded up. -/
def ceilLog (x : Float) : Int :=
  let e := floorLog x
  if exceeds x (2 * e) then e + 1 else e

/-- The rounded logarithm, rounded to the nearest whole number; a half goes
    away from zero. -/
def roundLog (x : Float) : Int :=
  let e := floorLog x
  let up := if 0 ≤ e then reaches x (2 * e + 1) else exceeds x (2 * e + 1)
  if up then e + 1 else e

/-! ### Powers of ten -/

/-- The exponents whose power of ten becomes the upper of its two neighbours
    although the lower one is no farther away. -/
def upperPowers : List Int := [23, 210]

/-- A power of ten as a double: the nearest one, but for `upperPowers`. -/
def powerOfTen (e : Int) : Float :=
  let bits := Binary64.nearestBits .toEven (tenTo e).1 (tenTo e).2
  let chosen := if upperPowers.contains e then bits + 1 else bits
  Binary64.ofSizeBits false (min chosen Binary64.infinityBits)

end PlotGrammar.Decimal
