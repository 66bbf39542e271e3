/-! # Integers

  The natural numbers that a plain scalar may stand for: decimal, or with a
  mark of base sixteen, eight or two.
-/

namespace PlotGrammar.Yaml

/-- The value of a digit in a base up to sixteen. -/
def digitValue? (base : Nat) (c : Char) : Option Nat :=
  let value :=
    if c.isDigit then c.toNat - '0'.toNat
    else if 'a' ≤ c ∧ c ≤ 'f' then c.toNat - 'a'.toNat + 10
    else if 'A' ≤ c ∧ c ≤ 'F' then c.toNat - 'A'.toNat + 10
    else base
  if value < base then some value else none

/-- The number that digits of a base stand for; there has to be a digit. -/
def digitsValue? (base : Nat) : List Char → Option Nat
  | [] => none
  | cs => (cs.mapM (digitValue? base)).map fun ds => ds.foldl (fun n d => n * base + d) 0

/-- The natural number of a text, perhaps with a plus sign before it. -/
def natural? : List Char → Option Nat
  | '+' :: cs => unsigned? cs
  | cs => unsigned? cs
where
  /-- A number without its sign. Several digits do not start with a zero. -/
  unsigned? : List Char → Option Nat
    | '0' :: 'x' :: cs => digitsValue? 16 cs
    | '0' :: 'o' :: cs => digitsValue? 8 cs
    | '0' :: 'b' :: cs => digitsValue? 2 cs
    | '0' :: _ :: _ => none
    | cs => digitsValue? 10 cs

end PlotGrammar.Yaml
