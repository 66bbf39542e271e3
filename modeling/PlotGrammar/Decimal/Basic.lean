import PlotGrammar.Binary64

/-! # Decimals

  A decimal is a whole coefficient times a power of ten. It is read into the
  nearest double, and a double is written with the fewest digits that read
  back to it.

  - `Decimal.toFloat?` reads; it refuses what is beyond the largest double.
  - `Decimal.shortest` tries one digit, then two, and so on, and takes the
    first length at which a neighbour of the double reads back to it. Of two
    such neighbours the nearer is taken.
  - `order num den` is the power of ten of the leading digit.
-/

namespace PlotGrammar

/-- The number `coefficient · 10^exponent`. -/
structure Decimal where
  coefficient : Nat
  exponent : Int
deriving DecidableEq, Repr

/-- The number of decimal digits of a natural number. -/
def digitCount (n : Nat) : Nat := (Nat.toDigits 10 n).length

namespace Decimal

/-- The decimal as a ratio of naturals. -/
def ratio (d : Decimal) : Nat × Nat :=
  match d.exponent with
  | .ofNat e => (d.coefficient * Nat.pow 10 e, 1)
  | .negSucc e => (d.coefficient, Nat.pow 10 (e + 1))

/-! ### Reading -/

/-- The power of ten from which on every coefficient is too large, and below
    the negative of which every double is zero. -/
def widestOrder : Nat := 400

/-- The nearest double, or `none` beyond the largest one. Decimals of extreme
    order are settled by their order alone. -/
def toFloat? (isNegative : Bool) (d : Decimal) : Option Float :=
  -- The size is below `10^top`, and from `10^(top - 1)` on unless it is zero.
  let top := d.exponent + digitCount d.coefficient
  if d.coefficient = 0 ∨ top < -(widestOrder : Int) then
    some (Binary64.ofSizeBits isNegative 0)
  else if (widestOrder : Int) < top then none
  else
    let bits := Binary64.nearestBits .toEven d.ratio.1 d.ratio.2
    if bits < Binary64.infinityBits then some (Binary64.ofSizeBits isNegative bits) else none

/-! ### Writing -/

/-- The exponent `e` with `10^e ≤ num / den < 10^(e+1)`, for a positive ratio. -/
def order (num den : Nat) : Int :=
  if den ≤ num then (digitCount (num / den) : Int) - 1
  else
    let places := digitCount (den / num)
    if den ≤ num * Nat.pow 10 (places - 1) then -((places : Int) - 1) else -(places : Int)

/-- The same number with a coefficient that does not end in zero. -/
def trim (d : Decimal) : Decimal :=
  if d.coefficient = 0 then ⟨0, 0⟩
  else
    let zeros := ((Nat.toDigits 10 d.coefficient).reverse.takeWhile (· == '0')).length
    ⟨d.coefficient / Nat.pow 10 zeros, d.exponent + zeros⟩

/-- Whether the double nearest to the decimal has the given size bits. -/
def readsAs (bits : Nat) (d : Decimal) : Bool :=
  Binary64.nearestBits .toEven d.ratio.1 d.ratio.2 == bits

/-- A multiple of `10^e` next to the given size that reads back to it, if
    there is one; of two the nearer. -/
def onGrid? (tie : Tie) (bits : Nat) (e : Int) : Option Decimal :=
  let units := Binary64.unitsOfBits bits
  let scaled : Nat × Nat := match e with
    | .ofNat k => (units, Binary64.one * Nat.pow 10 k)
    | .negSucc k => (units * Nat.pow 10 (k + 1), Binary64.one)
  let below := scaled.1 / scaled.2
  -- The nearer of the two neighbours comes first.
  [⟨tie.divide scaled.1 scaled.2, e⟩, ⟨below, e⟩, ⟨below + 1, e⟩].find? (readsAs bits)

/-- The most digits that a double can need. -/
def mostDigits : Nat := 17

/-- The decimal with the fewest digits that reads back to the given size. The
    exact value stands behind the search, so that every size has a decimal. -/
def shortest (tie : Tie) (bits : Nat) : Decimal :=
  let units := Binary64.unitsOfBits bits
  if units = 0 then ⟨0, 0⟩
  else
    let leading := order units Binary64.one
    let found := (List.range mostDigits).findSome? fun (i : Nat) => onGrid? tie bits (leading - i)
    (found.getD ⟨units * Nat.pow 5 1074, -1074⟩).trim

end Decimal

end PlotGrammar
