import PlotGrammar.Binning
import PlotGrammar.Proofs.Decimal.Nearness
import PlotGrammar.Proofs.Json.Numbers

/-! # What labels say

  A label `[lower-upper]` is read as the two numbers in it (`labelEnds?`),
  whether they are negative or not. The label of a number says the ends of its
  bucket, as they are written (`labelEnds?_label`).
-/

namespace PlotGrammar

/-! ### Numerals -/

/-- Read digits that may have a point in them: the number and what follows. -/
def size? (cs : List Char) : Option (ℚ × List Char) := do
  let (whole, rest) ← Json.wholeDigits? cs
  let (fraction, rest) ← Json.fractionDigits? rest
  return ((Decimal.mk (Nat.ofDigitChars 10 (whole ++ fraction) 0) (-fraction.length)).value, rest)

/-- Read a number without an exponent: the number and what follows. -/
def numeral? : List Char → Option (ℚ × List Char)
  | '-' :: cs => (size? cs).map fun (size, rest) => (-size, rest)
  | cs => size? cs

section

variable {rest : List Char}

theorem size?_whole {whole : List Char} (hwhole : Json.AreWhole whole)
    (hrest : Json.EndsNumber rest) :
    size? (whole ++ rest) = some ((Decimal.mk (Nat.ofDigitChars 10 whole 0) 0).value, rest) := by
  simp [size?, Json.wholeDigits?_append hwhole hrest.not_digit, Json.fractionDigits?_of_ends hrest]

theorem size?_point {whole fraction : List Char} (hwhole : Json.AreWhole whole)
    (hfraction : Json.AreDigits fraction) (hrest : Json.EndsNumber rest) :
    size? (whole ++ '.' :: fraction ++ rest) =
      some ((Decimal.mk (Nat.ofDigitChars 10 (whole ++ fraction) 0) (-fraction.length)).value,
        rest) := by
  have hpoint : ∀ c ∈ ('.' :: fraction ++ rest).head?, c.isDigit = false := by simp
  rw [List.append_assoc]
  simp only [size?, Json.wholeDigits?_append hwhole hpoint]
  simp only [List.cons_append, Json.fractionDigits?, Json.digits?_append hfraction hrest.not_digit,
    Option.bind_eq_bind, Option.bind_some, pure]

/-- The digits that are written are read as the number that they stand for. -/
theorem size?_positionalText {d : Decimal} (hd : d.coefficient = 0 → d.exponent = 0)
    (hrest : Json.EndsNumber rest) :
    size? (plainStyle.positionalText d ++ rest) = some (d.value, rest) := by
  obtain ⟨coefficient, exponent⟩ := d
  cases exponent with
  | ofNat zeros =>
    have hwhole := Json.areWhole_zeros fun hzero => Int.ofNat.inj (hd hzero)
    have hdigits : Nat.ofDigitChars 10
        (Nat.toDigits 10 coefficient ++ List.replicate zeros '0') 0 = coefficient * 10 ^ zeros := by
      rw [Nat.ofDigitChars_append, Nat.ofDigitChars_ten_toDigits, Nat.ofDigitChars_replicate_zero]
      ring
    have hread := size?_whole hwhole hrest
    rw [hdigits] at hread
    simpa [NumberStyle.positionalText, plainStyle, Decimal.value] using hread
  | negSucc places =>
    have hne : coefficient ≠ 0 := fun hzero => Int.negSucc_ne_zero places (hd hzero)
    obtain ⟨whole, fraction, hwhole, hfraction, htext, hdigits, hlength⟩ :=
      Json.exists_withPoint hne places
    have hread := size?_point hwhole hfraction hrest
    rw [hdigits, hlength, ← htext] at hread
    exact hread

/-- What is read without a sign starts with a digit, so it is read as it is. -/
theorem numeral?_of_size? {cs : List Char} {r : ℚ × List Char} (h : size? cs = some r) :
    numeral? cs = some r := by
  cases cs with
  | nil => cases h
  | cons c cs =>
    have hsign : c ≠ '-' := by
      rintro rfl
      cases h
    unfold numeral?
    split
    · next heq => exact absurd (List.cons.inj heq).1 hsign
    · exact h

/-- The text of a finite double is read as the number that is written for it. -/
theorem numeral?_displayNumber {x : Float} (hx : x.isFinite = true)
    (hrest : Json.EndsNumber rest) :
    numeral? ((displayNumber x).toList ++ rest) = some (Decimal.written .up x, rest) := by
  have hread := size?_positionalText (d := Decimal.shortest .up (Binary64.sizeBits x))
    Decimal.exponent_shortest hrest
  rw [displayNumber, Binary64.isNaN_of_isFinite hx, if_neg Bool.false_ne_true, if_pos hx,
    String.toList_ofList]
  by_cases hsign : Binary64.negative x = true
  · have htext : plainStyle.finite x =
        '-' :: plainStyle.positionalText (Decimal.shortest .up (Binary64.sizeBits x)) := by
      rw [NumberStyle.finite, if_pos hsign]
      rfl
    rw [htext, List.cons_append, numeral?, hread, Decimal.written, if_pos hsign]
    rfl
  · have htext : plainStyle.finite x =
        plainStyle.positionalText (Decimal.shortest .up (Binary64.sizeBits x)) := by
      rw [NumberStyle.finite, if_neg hsign]
      rfl
    rw [htext, numeral?_of_size? hread, Decimal.written, if_neg hsign]

end

/-! ### Labels -/

/-- Read a label: the two ends in it. -/
def labelEnds? : Cell → Option (ℚ × ℚ)
  | .text label =>
    match label.toList with
    | '[' :: cs => do
      let (lower, rest) ← numeral? cs
      match rest with
      | '-' :: cs =>
        let (upper, rest) ← numeral? cs
        if rest = [']'] then return (lower, upper) else none
      | _ => none
    | _ => none
  | _ => none

namespace Binning

variable {b : Binning} {cell : Cell} {x : Float}

theorem label_eq_text (hcell : cell.finite? = some x) : b.label cell =
    .text ("[" ++ displayNumber (b.ends x).1 ++ "-" ++ displayNumber (b.ends x).2 ++ "]") := by
  rw [label, hcell]

/-- A label says both ends of the bucket, as they are written. -/
theorem labelEnds?_label (hcell : cell.finite? = some x) (hlower : (b.ends x).1.isFinite = true)
    (hupper : (b.ends x).2.isFinite = true) :
    labelEnds? (b.label cell) =
      some (Decimal.written .up (b.ends x).1, Decimal.written .up (b.ends x).2) := by
  have hbetween : Json.EndsNumber ('-' :: ((displayNumber (b.ends x).2).toList ++ [']'])) := by
    simp [Json.EndsNumber]
  have hend : Json.EndsNumber [']'] := by simp [Json.EndsNumber]
  have htext : ("[" ++ displayNumber (b.ends x).1 ++ "-" ++
      displayNumber (b.ends x).2 ++ "]").toList =
        '[' :: ((displayNumber (b.ends x).1).toList ++
          '-' :: ((displayNumber (b.ends x).2).toList ++ [']'])) := by
    simp [String.toList_append]
  rw [label_eq_text hcell, labelEnds?, htext]
  simp only [numeral?_displayNumber hlower hbetween, Option.bind_eq_bind, Option.bind_some,
    numeral?_displayNumber hupper hend, if_true]
  rfl

/-- What is not a finite number has no label. -/
theorem label_eq_null (hcell : cell.finite? = none) : b.label cell = .null := by
  rw [label, hcell]

end Binning

end PlotGrammar
