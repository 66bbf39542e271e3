import PlotGrammar.Decimal.Basic

/-! # Text of numbers

  A `NumberStyle` holds the choices of a written form: where an exact tie
  between two equally short decimals goes, whether a whole number ends in
  `.0`, and for which sizes a number is written without an exponent.
-/

namespace PlotGrammar

/-- The choices of a written form of numbers. -/
structure NumberStyle where
  /-- Which of two equally near decimals is written. -/
  tie : Tie
  /-- Whether a whole number ends in `.0`. -/
  showsFraction : Bool
  /-- The least and greatest number of digits before the point, negative for
      zeros after it, between which no exponent is written; `none` never
      writes an exponent. -/
  positional : Option (Int × Int)

namespace NumberStyle

/-- The digits with a point put in, `places` digits from the right. -/
def withPoint (digits : List Char) (places : Nat) : List Char :=
  if places < digits.length then
    digits.take (digits.length - places) ++ '.' :: digits.drop (digits.length - places)
  else '0' :: '.' :: List.replicate (places - digits.length) '0' ++ digits

/-- The digits without an exponent. -/
def positionalText (style : NumberStyle) (d : Decimal) : List Char :=
  let digits := Nat.toDigits 10 d.coefficient
  match d.exponent with
  | .ofNat zeros =>
    digits ++ List.replicate zeros '0' ++ (if style.showsFraction then ['.', '0'] else [])
  | .negSucc e => withPoint digits (e + 1)

/-- The digits with one before the point, and a signed exponent. -/
def exponentText (d : Decimal) : List Char :=
  let digits := Nat.toDigits 10 d.coefficient
  let fraction := match digits.drop 1 with
    | [] => []
    | rest => '.' :: rest
  let power := d.exponent + digits.length - 1
  digits.take 1 ++ fraction ++
    'e' :: (if power < 0 then '-' else '+') :: Nat.toDigits 10 power.natAbs

/-- The text of a decimal. -/
def text (style : NumberStyle) (d : Decimal) : List Char :=
  let whole := d.exponent + digitCount d.coefficient
  match style.positional with
  | none => style.positionalText d
  | some (least, most) =>
    if least ≤ whole ∧ whole ≤ most then style.positionalText d else exponentText d

/-- The text of a finite double. -/
def finite (style : NumberStyle) (x : Float) : List Char :=
  let digits := style.text (Decimal.shortest style.tie (Binary64.sizeBits x))
  if Binary64.negative x then '-' :: digits else digits

end NumberStyle

/-- Numbers in messages and labels: the fewest digits, never an exponent, no
    point in a whole number, a tie rounded up. -/
def plainStyle : NumberStyle := ⟨.up, false, none⟩

/-- The text of a double in messages and labels. -/
def displayNumber (x : Float) : String :=
  if x.isNaN then "NaN"
  else if x.isFinite then String.ofList (plainStyle.finite x)
  else if Binary64.negative x then "-inf"
  else "inf"

end PlotGrammar
