import PlotGrammar.Json.Printer
import PlotGrammar.Json.Reader

/-! # Strings read back

  A string is read from its text up to the closing quote, whatever follows
  (`characters?_append`). Every character stands for itself or is escaped in a
  way of which the reader makes the character again (`escaped_cases`).
-/

namespace PlotGrammar.Json

theorem hexDigit?_digitChar {n : Nat} (h : n < 16) : hexDigit? (Nat.digitChar n) = some n := by
  revert n
  decide

/-- Two hexadecimal digits after two zeros are read as the number of a character. -/
theorem unicodeEscape?_append {c : Char} (h : c.toNat < 0x20) (rest : List Char) :
    unicodeEscape?
        (['0', '0', Nat.digitChar (c.toNat / 16), Nat.digitChar (c.toNat % 16)] ++ rest) =
      some (c, rest) := by
  have hhigh : c.toNat / 16 < 16 := by omega
  have hlow : c.toNat % 16 < 16 := Nat.mod_lt _ (by decide)
  have hzero : hexDigit? '0' = some 0 := rfl
  have hunit : ((0 * 16 + 0) * 16 + c.toNat / 16) * 16 + c.toNat % 16 = c.toNat := by omega
  have hplain : c.toNat < 0xD800 ∨ 0xE000 ≤ c.toNat := by omega
  simp only [unicodeEscape?, hexUnit?, List.cons_append, List.nil_append, hzero,
    hexDigit?_digitChar hhigh, hexDigit?_digitChar hlow, Option.bind_eq_bind, Option.bind_some,
    Option.pure_def, hunit, if_pos hplain, Char.ofNat_toNat]

/-- A character stands for itself, or it is made again of what follows a
    backslash. -/
theorem escaped_cases (c : Char) :
    escaped c = [c] ∧ c ≠ '"' ∧ c ≠ '\\' ∧ ¬ c.toNat < 0x20 ∨
      ∃ code, escaped c = '\\' :: code ∧ ∀ rest, escape? (code ++ rest) = some (c, rest) := by
  unfold escaped
  split
  · next h => exact .inr ⟨_, rfl, fun rest => by rw [h]; rfl⟩
  split
  · next h => exact .inr ⟨_, rfl, fun rest => by rw [h]; rfl⟩
  split
  · next h => exact .inr ⟨_, rfl, fun rest => by rw [h]; rfl⟩
  split
  · next h => exact .inr ⟨_, rfl, fun rest => by rw [h]; rfl⟩
  split
  · next h => exact .inr ⟨_, rfl, fun rest => by rw [h]; rfl⟩
  split
  · next h => exact .inr ⟨_, rfl, fun rest => by rw [h]; rfl⟩
  split
  · next h => exact .inr ⟨_, rfl, fun rest => by rw [h]; rfl⟩
  split
  · next hcontrol => exact .inr ⟨_, rfl, unicodeEscape?_append hcontrol⟩
  · next hquote hslash _ _ _ _ _ hcontrol => exact .inl ⟨rfl, hquote, hslash, hcontrol⟩

/-- The characters of a string are read up to its closing quote. -/
theorem characters?_append {cs : List Char} {steps : Nat} (h : cs.length < steps)
    (rest : List Char) :
    characters? steps (cs.flatMap escaped ++ '"' :: rest) = some (cs, rest) := by
  induction cs generalizing steps with
  | nil =>
    cases steps with
    | zero => exact absurd h (Nat.lt_irrefl 0)
    | succ steps => rfl
  | cons c cs ih =>
    cases steps with
    | zero => exact absurd h (Nat.not_lt_zero _)
    | succ steps =>
      have hmore := ih (Nat.lt_of_succ_lt_succ h)
      rw [List.flatMap_cons, List.append_assoc]
      rcases escaped_cases c with ⟨hself, hquote, hslash, hcontrol⟩ | ⟨code, hcode, hescape⟩
      · rw [hself, List.cons_append, List.nil_append, characters?, if_neg hquote, if_neg hslash,
          if_neg hcontrol, hmore]
        rfl
      · rw [hcode, List.cons_append, characters?, if_neg (by decide), if_pos rfl, hescape,
          Option.bind_eq_bind, Option.bind_some]
        dsimp only
        rw [hmore]
        rfl

theorem length_le_length_escaped (cs : List Char) : cs.length ≤ (cs.flatMap escaped).length := by
  induction cs with
  | nil => exact Nat.le_refl _
  | cons c cs ih =>
    have hpos : 0 < (escaped c).length := by
      rcases escaped_cases c with ⟨hself, -⟩ | ⟨code, hcode, -⟩
      · rw [hself]
        exact Nat.one_pos
      · rw [hcode]
        exact Nat.succ_pos _
    rw [List.flatMap_cons, List.length_append, List.length_cons]
    omega

/-- The text of a string has its quotes besides its characters. -/
theorem length_lt_length_quoted (s : String) : s.toList.length + 1 < (quoted s).length := by
  have := length_le_length_escaped s.toList
  simp only [quoted, List.cons_append, List.length_cons, List.length_append, List.length_nil]
  omega

end PlotGrammar.Json
