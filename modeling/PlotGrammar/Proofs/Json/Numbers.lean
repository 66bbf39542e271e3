import PlotGrammar.Json.Printer
import PlotGrammar.Json.Reader
import PlotGrammar.Proofs.Binary64.Bits
import PlotGrammar.Proofs.Decimal.Shortest

/-! # Numbers read back

  The text of a number is read as the number (`number?_text`), if nothing
  follows that could be a part of it. A double may be written without an
  exponent, with the point inside the digits or before them, or with an
  exponent; in each form the reader finds a decimal of the same value.
-/

namespace PlotGrammar

/-! ### Digits -/

/-- The digits of a positive number do not start with a zero. -/
theorem exists_toDigits_eq_cons {n : Nat} (h : n ≠ 0) :
    ∃ c cs, Nat.toDigits 10 n = c :: cs ∧ c ≠ '0' := by
  induction n using Nat.strongRecOn with
  | ind n ih =>
    by_cases hlt : n < 10
    · rw [Nat.toDigits_of_lt_base hlt]
      refine ⟨_, _, rfl, ?_⟩
      rwa [Ne, Nat.digitChar_eq_zero]
    · obtain ⟨c, cs, hdigits, hc⟩ := ih (n / 10) (by omega) (by omega)
      rw [Nat.toDigits_of_base_le (by decide) (by omega), hdigits]
      exact ⟨c, cs ++ [_], rfl, hc⟩

theorem isDigit_of_mem_toDigits {n : Nat} {c : Char} (h : c ∈ Nat.toDigits 10 n) :
    c.isDigit = true :=
  Nat.isDigit_of_mem_toDigits (by decide) (by decide) h

namespace Json

/-- Nothing that could be a part of a number follows it. -/
def EndsNumber (rest : List Char) : Prop :=
  ∀ c ∈ rest.head?, c.isDigit = false ∧ c ≠ '.' ∧ c ≠ 'e' ∧ c ≠ 'E'

/-- Some digits, at least one. -/
def AreDigits (ds : List Char) : Prop := ds ≠ [] ∧ ∀ c ∈ ds, c.isDigit = true

/-- Digits before a point: a zero stands alone. -/
structure AreWhole (ds : List Char) : Prop where
  digits : AreDigits ds
  zero : ds = ['0'] ∨ ds.head? ≠ some '0'

theorem areDigits_toDigits (n : Nat) : AreDigits (Nat.toDigits 10 n) :=
  ⟨Nat.toDigits_ne_nil, fun _ hc => isDigit_of_mem_toDigits hc⟩

/-- Some first digits of a positive number may stand before a point. -/
theorem areWhole_take {n : Nat} (h : n ≠ 0) {k : Nat} (hk : 0 < k) :
    AreWhole ((Nat.toDigits 10 n).take k) := by
  obtain ⟨c, cs, hdigits, hc⟩ := exists_toDigits_eq_cons h
  obtain ⟨k, rfl⟩ := Nat.exists_eq_succ_of_ne_zero (Nat.ne_of_gt hk)
  refine ⟨⟨by simp [hdigits], fun d hd => isDigit_of_mem_toDigits (List.mem_of_mem_take hd)⟩,
    .inr ?_⟩
  simpa [hdigits] using hc

/-- The digits of a positive number may stand before a point, whatever digits
    follow them. -/
theorem areWhole_append {n : Nat} (h : n ≠ 0) {more : List Char}
    (hmore : ∀ c ∈ more, c.isDigit = true) : AreWhole (Nat.toDigits 10 n ++ more) := by
  obtain ⟨c, cs, hdigits, hc⟩ := exists_toDigits_eq_cons h
  refine ⟨⟨by simp, fun d hd => ?_⟩, .inr ?_⟩
  · rcases List.mem_append.1 hd with hd | hd
    · exact isDigit_of_mem_toDigits hd
    · exact hmore d hd
  · simpa [hdigits] using hc

theorem areWhole_toDigits (n : Nat) : AreWhole (Nat.toDigits 10 n) := by
  by_cases h : n = 0
  · rw [h, Nat.toDigits_zero]
    exact ⟨⟨by simp, by simp⟩, .inl rfl⟩
  · have hnone : ∀ c ∈ ([] : List Char), c.isDigit = true := by simp
    simpa using areWhole_append h hnone

/-! ### Reading digits -/

variable {rest : List Char}

theorem EndsNumber.not_digit (h : EndsNumber rest) : ∀ c ∈ rest.head?, c.isDigit = false :=
  fun c hc => (h c hc).1

theorem digits?_append {ds : List Char} (hds : AreDigits ds)
    (hrest : ∀ c ∈ rest.head?, c.isDigit = false) : digits? (ds ++ rest) = some (ds, rest) := by
  have htake : rest.takeWhile Char.isDigit = [] := by
    cases rest with
    | nil => rfl
    | cons c cs => rw [List.takeWhile_cons_of_neg (by simp [hrest c rfl])]
  have hdrop : rest.dropWhile Char.isDigit = rest := by
    cases rest with
    | nil => rfl
    | cons c cs => rw [List.dropWhile_cons_of_neg (by simp [hrest c rfl])]
  rw [digits?, List.takeWhile_append_of_pos hds.2, List.dropWhile_append_of_pos hds.2, htake,
    hdrop, List.append_nil]
  cases ds with
  | nil => exact absurd rfl hds.1
  | cons d ds => rfl

theorem wholeDigits?_append {ds : List Char} (hds : AreWhole ds)
    (hrest : ∀ c ∈ rest.head?, c.isDigit = false) :
    wholeDigits? (ds ++ rest) = some (ds, rest) := by
  rw [wholeDigits?, digits?_append hds.digits hrest]
  rcases hds.zero with hzero | hzero
  · rw [hzero]
    rfl
  · cases ds with
    | nil => rfl
    | cons d ds =>
      have hd : d ≠ '0' := by simpa using hzero
      simp [hd]

theorem fractionDigits?_of_ends (h : EndsNumber rest) : fractionDigits? rest = some ([], rest) := by
  cases rest with
  | nil => rfl
  | cons c cs =>
    have hc := (h c rfl).2.1
    simp [fractionDigits?, hc]

theorem exponent?_of_ends (h : EndsNumber rest) : exponent? rest = some (none, rest) := by
  cases rest with
  | nil => rfl
  | cons c cs =>
    obtain ⟨-, -, he, hE⟩ := h c rfl
    simp [exponent?, he, hE]

/-- The text of an exponent is read as the exponent. -/
theorem exponent?_append (power : Int) (hrest : ∀ c ∈ rest.head?, c.isDigit = false) :
    exponent? ('e' :: (if power < 0 then '-' else '+') :: Nat.toDigits 10 power.natAbs ++ rest) =
      some (some power, rest) := by
  have hdigits := digits?_append (areDigits_toDigits power.natAbs) hrest
  by_cases hsign : power < 0
  · have hpower : -(power.natAbs : Int) = power := by omega
    simp only [hsign, if_true, List.cons_append, exponent?, signedDigits?, hdigits,
      Option.map_some, Nat.ofDigitChars_ten_toDigits, hpower]
  · have hpower : (power.natAbs : Int) = power := by omega
    simp only [hsign, if_false, List.cons_append, exponent?, signedDigits?, hdigits,
      Option.map_some, Nat.ofDigitChars_ten_toDigits, hpower]

/-! ### Reading numbers without a sign -/

variable (isNegative : Bool)

/-- The number that is read as a decimal, and what follows it. -/
def real? (isNegative : Bool) (d : Decimal) (rest : List Char) : Option (Number × List Char) :=
  (d.toFloat? isNegative).map fun x => (.real x, rest)

/-- Digits alone are an integer. -/
theorem unsigned?_whole {whole : List Char} (hwhole : AreWhole whole) (hrest : EndsNumber rest) :
    unsigned? isNegative (whole ++ rest) =
      (integer? isNegative (Nat.ofDigitChars 10 whole 0)).map fun n => (n, rest) := by
  simp only [unsigned?, wholeDigits?_append hwhole hrest.not_digit, fractionDigits?_of_ends hrest,
    exponent?_of_ends hrest, Option.bind_eq_bind, Option.bind_some]
  cases integer? isNegative (Nat.ofDigitChars 10 whole 0) <;> rfl

/-- Digits with a point in them are a decimal. -/
theorem unsigned?_point {whole fraction : List Char} (hwhole : AreWhole whole)
    (hfraction : AreDigits fraction) (hrest : EndsNumber rest) :
    unsigned? isNegative (whole ++ '.' :: fraction ++ rest) =
      real? isNegative ⟨Nat.ofDigitChars 10 (whole ++ fraction) 0, -fraction.length⟩ rest := by
  have hpoint : ∀ c ∈ ('.' :: fraction ++ rest).head?, c.isDigit = false := by simp
  rw [List.append_assoc]
  simp only [unsigned?, wholeDigits?_append hwhole hpoint]
  simp only [List.cons_append, fractionDigits?, digits?_append hfraction hrest.not_digit,
    exponent?_of_ends hrest, Option.bind_eq_bind, Option.bind_some]
  cases fraction with
  | nil => exact absurd rfl hfraction.1
  | cons d ds =>
    simp only [Option.getD_none, Int.zero_sub, real?]
    cases Decimal.toFloat? isNegative _ <;> rfl

/-- Digits with an exponent are a decimal, with a point in them or not. -/
theorem unsigned?_exponent {whole fraction : List Char} (power : Int) (hwhole : AreWhole whole)
    (hfraction : ∀ c ∈ fraction, c.isDigit = true) (hrest : EndsNumber rest) :
    unsigned? isNegative (whole ++ (if fraction = [] then [] else '.' :: fraction) ++
        'e' :: (if power < 0 then '-' else '+') :: Nat.toDigits 10 power.natAbs ++ rest) =
      real? isNegative ⟨Nat.ofDigitChars 10 (whole ++ fraction) 0, power - fraction.length⟩
        rest := by
  have hpower := exponent?_append power hrest.not_digit
  generalize htail : 'e' :: (if power < 0 then '-' else '+') :: Nat.toDigits 10 power.natAbs ++
    rest = tail at hpower
  have hletter : ∀ c ∈ tail.head?, c.isDigit = false := by simp [← htail]
  rw [List.append_assoc, List.append_assoc, htail]
  cases fraction with
  | nil =>
    have hnone : fractionDigits? tail = some ([], tail) := by
      rw [← htail]
      rfl
    rw [if_pos rfl, List.nil_append]
    simp only [unsigned?, wholeDigits?_append hwhole hletter, hnone, hpower,
      Option.bind_eq_bind, Option.bind_some, Option.getD_some, real?]
    cases Decimal.toFloat? isNegative _ <;> rfl
  | cons d ds =>
    have hpoint : ∀ c ∈ ('.' :: d :: ds ++ tail).head?, c.isDigit = false := by simp
    have hfraction : AreDigits (d :: ds) := ⟨List.cons_ne_nil d ds, hfraction⟩
    rw [if_neg (List.cons_ne_nil d ds)]
    simp only [unsigned?, wholeDigits?_append hwhole hpoint]
    simp only [List.cons_append, fractionDigits?, Option.bind_eq_bind, Option.bind_some]
    rw [← List.cons_append, digits?_append hfraction hletter]
    simp only [hpower, Option.bind_some, Option.getD_some, real?]
    cases Decimal.toFloat? isNegative _ <;> rfl

/-! ### Reading what is written -/

/-- Decimals of one value are read as the same number. -/
theorem real?_congr {d d' : Decimal} (h : d.value = d'.value) :
    real? isNegative d rest = real? isNegative d' rest := by
  rw [real?, real?, Decimal.toFloat?_congr isNegative h]

/-- The digits of a number may be followed by zeros, unless it is zero. -/
theorem areWhole_zeros {coefficient zeros : Nat} (h : coefficient = 0 → zeros = 0) :
    AreWhole (Nat.toDigits 10 coefficient ++ List.replicate zeros '0') := by
  by_cases hzero : coefficient = 0
  · rw [h hzero, List.replicate_zero, List.append_nil]
    exact areWhole_toDigits coefficient
  · refine areWhole_append hzero fun c hc => ?_
    rw [List.eq_of_mem_replicate hc]
    rfl

/-- Digits and zeros with a fraction of zero. -/
theorem unsigned?_zeros {coefficient zeros : Nat} (h : coefficient = 0 → zeros = 0)
    (hrest : EndsNumber rest) :
    unsigned? isNegative
        (Nat.toDigits 10 coefficient ++ List.replicate zeros '0' ++ ['.', '0'] ++ rest) =
      real? isNegative ⟨coefficient, zeros⟩ rest := by
  have hfraction : AreDigits ['0'] := ⟨by simp, by simp⟩
  rw [unsigned?_point isNegative (areWhole_zeros h) hfraction hrest]
  apply real?_congr
  -- The number and its zeros are followed by one more zero, which the exponent takes back.
  have hdigits : Nat.ofDigitChars 10
      (Nat.toDigits 10 coefficient ++ List.replicate zeros '0' ++ ['0']) 0 =
        coefficient * 10 ^ zeros * 10 := by
    rw [Nat.ofDigitChars_append, Nat.ofDigitChars_append, Nat.ofDigitChars_ten_toDigits,
      Nat.ofDigitChars_replicate_zero, ← List.replicate_one, Nat.ofDigitChars_replicate_zero]
    ring
  rw [hdigits, Decimal.value, Decimal.value]
  simp

/-- A point inside the digits or before them leaves digits on both sides. -/
theorem exists_withPoint {coefficient : Nat} (h : coefficient ≠ 0) (places : Nat) :
    ∃ whole fraction, AreWhole whole ∧ AreDigits fraction ∧
      NumberStyle.withPoint (Nat.toDigits 10 coefficient) (places + 1) = whole ++ '.' :: fraction ∧
      Nat.ofDigitChars 10 (whole ++ fraction) 0 = coefficient ∧ fraction.length = places + 1 := by
  have hall : ∀ c ∈ Nat.toDigits 10 coefficient, c.isDigit = true := fun c hc =>
    isDigit_of_mem_toDigits hc
  rw [NumberStyle.withPoint]
  split
  · next hinside =>
    generalize hk : (Nat.toDigits 10 coefficient).length - (places + 1) = k
    have hlength : ((Nat.toDigits 10 coefficient).drop k).length = places + 1 := by
      rw [List.length_drop]
      omega
    have hfraction : AreDigits ((Nat.toDigits 10 coefficient).drop k) := by
      refine ⟨List.ne_nil_of_length_pos ?_, fun c hc => hall c (List.mem_of_mem_drop hc)⟩
      omega
    refine ⟨_, _, areWhole_take h (by omega), hfraction, rfl, ?_, hlength⟩
    rw [List.take_append_drop, Nat.ofDigitChars_ten_toDigits]
  · next hbefore =>
    generalize hzeros : List.replicate (places + 1 - (Nat.toDigits 10 coefficient).length) '0' =
      zeros
    have hfraction : AreDigits (zeros ++ Nat.toDigits 10 coefficient) := by
      refine ⟨by simp, fun c hc => ?_⟩
      rcases List.mem_append.1 hc with hc | hc
      · rw [← hzeros] at hc
        rw [List.eq_of_mem_replicate hc]
        rfl
      · exact hall c hc
    refine ⟨['0'], _, areWhole_toDigits 0, hfraction, rfl, ?_, ?_⟩
    · rw [← hzeros, Nat.ofDigitChars_append, Nat.ofDigitChars_append, ← List.replicate_one,
        Nat.ofDigitChars_replicate_zero, Nat.ofDigitChars_replicate_zero, Nat.mul_zero,
        Nat.ofDigitChars_ten_toDigits]
    · rw [← hzeros, List.length_append, List.length_replicate]
      omega

/-- Digits with a point inside or before them. -/
theorem unsigned?_withPoint {coefficient : Nat} (h : coefficient ≠ 0) (places : Nat)
    (hrest : EndsNumber rest) :
    unsigned? isNegative
        (NumberStyle.withPoint (Nat.toDigits 10 coefficient) (places + 1) ++ rest) =
      real? isNegative ⟨coefficient, .negSucc places⟩ rest := by
  obtain ⟨whole, fraction, hwhole, hfraction, htext, hdigits, hlength⟩ := exists_withPoint h places
  rw [htext, unsigned?_point isNegative hwhole hfraction hrest, hdigits, hlength]
  rfl

/-- Digits with an exponent and, if there are several, a point after the first. -/
theorem unsigned?_exponentText (d : Decimal) (hrest : EndsNumber rest) :
    unsigned? isNegative (NumberStyle.exponentText d ++ rest) = real? isNegative d rest := by
  have hwhole : AreWhole ((Nat.toDigits 10 d.coefficient).take 1) := by
    by_cases hzero : d.coefficient = 0
    · rw [hzero, Nat.toDigits_zero]
      exact areWhole_toDigits 0
    · exact areWhole_take hzero Nat.one_pos
  have hfraction : ∀ c ∈ (Nat.toDigits 10 d.coefficient).drop 1, c.isDigit = true := fun c hc =>
    isDigit_of_mem_toDigits (List.mem_of_mem_drop hc)
  have hread := unsigned?_exponent isNegative
    (d.exponent + (Nat.toDigits 10 d.coefficient).length - 1) hwhole hfraction hrest
  -- The exponent counts from after the first digit, the decimal from after the last.
  have hpos : 0 < (Nat.toDigits 10 d.coefficient).length := Nat.length_toDigits_pos
  have hexponent : d.exponent + (Nat.toDigits 10 d.coefficient).length - 1 -
      ((Nat.toDigits 10 d.coefficient).drop 1).length = d.exponent := by
    rw [List.length_drop]
    omega
  rw [List.take_append_drop, Nat.ofDigitChars_ten_toDigits, hexponent] at hread
  rw [NumberStyle.exponentText, ← hread]
  cases (Nat.toDigits 10 d.coefficient).drop 1 <;> rfl

/-- The text of a decimal is read as the decimal. -/
theorem unsigned?_text {d : Decimal} (hd : d.coefficient = 0 → d.exponent = 0)
    (hrest : EndsNumber rest) :
    unsigned? isNegative (numberStyle.text d ++ rest) = real? isNegative d rest := by
  have hpositional : unsigned? isNegative (numberStyle.positionalText d ++ rest) =
      real? isNegative d rest := by
    obtain ⟨coefficient, exponent⟩ := d
    cases exponent with
    | ofNat zeros =>
      exact unsigned?_zeros isNegative (fun hzero => Int.ofNat.inj (hd hzero)) hrest
    | negSucc places =>
      refine unsigned?_withPoint isNegative (fun hzero => ?_) places hrest
      exact absurd (hd hzero) (Int.negSucc_ne_zero places)
  simp only [NumberStyle.text, numberStyle]
  split
  · exact hpositional
  · exact unsigned?_exponentText isNegative d hrest

/-- What is read as a number without a sign starts with a digit. -/
theorem exists_eq_cons_of_unsigned? {isNegative : Bool} {cs : List Char} {r : Number × List Char}
    (h : unsigned? isNegative cs = some r) : ∃ c cs', cs = c :: cs' ∧ c.isDigit = true := by
  cases cs with
  | nil => cases h
  | cons c cs =>
    refine ⟨c, cs, rfl, ?_⟩
    by_contra hc
    rw [unsigned?, wholeDigits?, digits?, List.takeWhile_cons_of_neg hc] at h
    cases h

/-- What is read without a sign is read as it is. -/
theorem number?_of_unsigned? {cs : List Char} {r : Number × List Char}
    (h : unsigned? false cs = some r) : number? cs = some r := by
  obtain ⟨c, cs', rfl, hc⟩ := exists_eq_cons_of_unsigned? h
  have hsign : c ≠ '-' := by
    rintro rfl
    cases hc
  simpa [number?, hsign] using h

/-! ### Numbers -/

/-- The digits of the size of a finite double are read as the double. -/
theorem unsigned?_shortest {x : Float} (h : x.isFinite = true) (hrest : EndsNumber rest) :
    unsigned? (Binary64.negative x)
        (numberStyle.text (Decimal.shortest numberStyle.tie (Binary64.sizeBits x)) ++ rest) =
      some (.real x, rest) := by
  rw [unsigned?_text (Binary64.negative x) Decimal.exponent_shortest hrest, real?,
    Decimal.toFloat?_shortest _ (Binary64.sizeBits_lt_infinityBits h), Option.map_some,
    Binary64.ofSizeBits_sizeBits]

/-- The text of a number is read as the number. -/
theorem number?_text {n : Number} (h : n.IsWritable) (hrest : EndsNumber rest) :
    number? (n.text ++ rest) = some (n, rest) := by
  cases n with
  | natural n =>
    have hlt : n < Nat.pow 2 64 := h
    apply number?_of_unsigned?
    rw [Number.text, unsigned?_whole false (areWhole_toDigits n) hrest,
      Nat.ofDigitChars_ten_toDigits, integer?, decide_eq_true hlt]
    rfl
  | negative n =>
    have hrange : 0 < n ∧ n ≤ Nat.pow 2 63 := h
    change unsigned? true (Nat.toDigits 10 n ++ rest) = _
    rw [unsigned?_whole true (areWhole_toDigits n) hrest, Nat.ofDigitChars_ten_toDigits, integer?,
      decide_eq_true hrange]
    rfl
  | real x =>
    have hx : x.isFinite = true := h
    have hread := unsigned?_shortest hx hrest
    rw [Number.text, if_pos hx, NumberStyle.finite]
    cases hsign : Binary64.negative x with
    | true =>
      rw [hsign] at hread
      exact hread
    | false =>
      rw [hsign] at hread
      exact number?_of_unsigned? hread

/-- The text of a number starts with a digit or a sign. -/
theorem Number.exists_text_eq_cons {n : Number} (h : n.IsWritable) :
    ∃ c cs, n.text = c :: cs ∧ (c = '-' ∨ c.isDigit = true) := by
  have hends : EndsNumber [] := by simp [EndsNumber]
  have hread : number? n.text = some (n, []) := by
    simpa using number?_text h hends
  cases htext : n.text with
  | nil =>
    rw [htext] at hread
    cases hread
  | cons c cs =>
    refine ⟨c, cs, rfl, ?_⟩
    by_cases hsign : c = '-'
    · exact .inl hsign
    · have hunsigned : unsigned? false (c :: cs) = some (n, []) := by
        rw [htext] at hread
        simpa [number?, hsign] using hread
      obtain ⟨c', cs', hcons, hc⟩ := exists_eq_cons_of_unsigned? hunsigned
      rw [(List.cons.inj hcons).1]
      exact .inr hc

end Json

end PlotGrammar
