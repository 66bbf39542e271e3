/-! # Doubles, exactly

  Every finite double is a whole multiple of `2^-1074`, so its size is a
  natural number of such units. This module reads a double as its units and
  finds the double nearest to a ratio of naturals. Rounding to whole numbers
  is done on the units.

  - `units x` is the size of `x` in units, `one` the units in `1`.
  - `nearestBits` says which double is closest to `num / den`; `Tie` says where
    an exact half goes.
  - `floor`, `ceil` and `round` keep the sign, so `ceil (-0.5)` is `-0.0`.
  - `power` multiplies a whole power out, rounding every product.
-/

namespace PlotGrammar

/-- Where a value exactly between two neighbours is rounded to. -/
inductive Tie where
  /-- To the even neighbour. -/
  | toEven
  /-- To the larger neighbour. -/
  | up
deriving DecidableEq, Repr

/-- The quotient `num / den`, rounded to a whole number. -/
def Tie.divide (tie : Tie) (num den : Nat) : Nat :=
  let quotient := num / den
  let twice := 2 * (num % den)
  if twice < den then quotient
  else if twice = den ∧ tie = .toEven ∧ quotient % 2 = 0 then quotient
  else quotient + 1

namespace Binary64

/-! ### Units -/

/-- The units of `2^-1074` in the number one. -/
def one : Nat := Nat.pow 2 1074

/-- Whether the sign bit is set; also for `-0.0`. -/
def negative (x : Float) : Bool := decide (Nat.pow 2 63 ≤ x.toBits.toNat)

/-- The bits below the sign. -/
def sizeBits (x : Float) : Nat := x.toBits.toNat % Nat.pow 2 63

/-- The units that a pattern of size bits stands for: below `2^52` the bits
    themselves, above it a significand with its leading one restored, shifted
    by one less than the exponent field. -/
def unitsOfBits (bits : Nat) : Nat :=
  if bits < Nat.pow 2 52 then bits
  else (Nat.pow 2 52 + bits % Nat.pow 2 52) * Nat.pow 2 (bits / Nat.pow 2 52 - 1)

/-- The size of a finite double in units. -/
def units (x : Float) : Nat := unitsOfBits (sizeBits x)

/-- Whether a finite double is a whole number. -/
def isWhole (x : Float) : Bool := units x % one == 0

/-! ### The nearest double -/

/-- The size bits of infinity. -/
def infinityBits : Nat := 2047 * Nat.pow 2 52

/-- The size bits of the double nearest to `num / den`. A carry out of the
    significand moves into the exponent by itself; from `infinityBits` on the
    ratio is beyond the largest double. -/
def nearestBits (tie : Tie) (num den : Nat) : Nat :=
  -- Sizes below `2^53` units keep every unit, larger ones their top 53 bits.
  let shift := (num * one / den).log2 - 52
  shift * Nat.pow 2 52 + tie.divide (num * one) (den * Nat.pow 2 shift)

/-- The double with the given sign and size bits. -/
def ofSizeBits (isNegative : Bool) (bits : Nat) : Float :=
  Float.ofBits (UInt64.ofNat ((if isNegative then Nat.pow 2 63 else 0) + bits))

/-! ### Whole numbers -/

/-- Round the size of a double to a whole number, keeping the sign. Doubles
    from `2^53` on are whole, and infinities and NaN stay as they are. -/
def roundSize (x : Float) (whole : Nat → Nat) : Float :=
  if x.isFinite && decide (units x < Nat.pow 2 53 * one) then
    let size := Float.ofNat (whole (units x))
    if negative x then -size else size
  else x

/-- The largest whole number not above `x`. -/
def floor (x : Float) : Float :=
  roundSize x fun u => if negative x then (u + one - 1) / one else u / one

/-- The smallest whole number not below `x`. -/
def ceil (x : Float) : Float :=
  roundSize x fun u => if negative x then u / one else (u + one - 1) / one

/-- The nearest whole number; a half goes away from zero. -/
def round (x : Float) : Float :=
  roundSize x fun u => (2 * u + one) / (2 * one)

/-- The largest count that can be represented. -/
def maxCount : Nat := Nat.pow 2 64 - 1

/-- The whole part as a count: zero for NaN and for negative numbers, and
    `maxCount` from there on. -/
def toCount (x : Float) : Nat :=
  if x.isNaN || negative x then 0 else min (units x / one) maxCount

/-! ### Powers -/

/-- Multiply by a power, from the last binary digit of the exponent on: every
    digit squares the base, and a one multiplies it in. -/
def timesPower (product base : Float) (exponent : Nat) : Float :=
  if exponent = 0 then product
  else
    timesPower (if exponent % 2 = 1 then product * base else product) (base * base) (exponent / 2)
termination_by exponent

/-- A whole power, by repeated squaring. -/
def power (base : Float) (exponent : Nat) : Float := timesPower 1.0 base exponent

/-! ### Order -/

/-- A number that orders the doubles, with `-0.0` before `0.0`. -/
def orderKey (x : Float) : Int :=
  if negative x then -(sizeBits x : Int) - 1 else sizeBits x

end Binary64

end PlotGrammar
