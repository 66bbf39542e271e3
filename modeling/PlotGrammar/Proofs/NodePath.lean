import PlotGrammar.NodePath
import PlotGrammar.Proofs.Json.Numbers
import PlotGrammar.Proofs.Lists

/-! # Paths read back

  The text of a path spells it out: between two slashes stand the digits of one
  position and nothing else, and a slash alone is the root. So the path can be
  read off its text (`ofCharacters_characters`), and no two paths have the same
  text (`display_eq_display_iff`).
-/

namespace PlotGrammar

namespace NodePath

/-- The path that characters spell out. -/
def ofCharacters (cs : List Char) : NodePath :=
  if cs = ['/'] then root
  else ⟨(cs.splitOn '/').tail.map fun digits => Nat.ofDigitChars 10 digits 0⟩

/-- The slashes are those before the positions. -/
theorem splitOn_flatMap (indices : List Nat) :
    (indices.flatMap fun i => '/' :: Nat.toDigits 10 i).splitOn '/' =
      [] :: indices.map (Nat.toDigits 10) := by
  have hjoin := intercalate_cons_eq_append_flatMap '/' [] (indices.map (Nat.toDigits 10))
  rw [List.flatMap_map, List.nil_append] at hjoin
  have hslash : ∀ i, '/' ∉ Nat.toDigits 10 i := by
    intro i hmem
    exact absurd (isDigit_of_mem_toDigits hmem) (by decide)
  rw [← hjoin, List.splitOn_intercalate]
  · simp [hslash]
  · simp

theorem ofCharacters_characters (p : NodePath) : ofCharacters p.characters = p := by
  obtain ⟨indices⟩ := p
  cases indices with
  | nil => rfl
  | cons i indices =>
    have hcharacters : characters ⟨i :: indices⟩ =
        (i :: indices).flatMap fun i => '/' :: Nat.toDigits 10 i := rfl
    -- A position has a digit, so this is not the text of the root.
    have hroot : characters ⟨i :: indices⟩ ≠ ['/'] := by
      simp [hcharacters, Nat.toDigits_ne_nil]
    rw [ofCharacters, if_neg hroot, hcharacters, splitOn_flatMap, List.tail_cons, List.map_map]
    simp [Function.comp_def]

/-- No two paths have the same text. -/
theorem display_eq_display_iff {p q : NodePath} : p.display = q.display ↔ p = q := by
  constructor
  · intro h
    have hcharacters : p.characters = q.characters := String.ofList_injective h
    exact Function.LeftInverse.injective ofCharacters_characters hcharacters
  · intro h
    rw [h]

@[simp] theorem toList_display (p : NodePath) : p.display.toList = p.characters :=
  String.toList_ofList

/-- A path is written with slashes and digits only. -/
theorem bne_of_mem_characters {p : NodePath} {c other : Char} (hslash : other ≠ '/')
    (hdigit : other.isDigit = false) (h : c ∈ p.characters) : (c != other) = true := by
  have hcases : c = '/' ∨ c.isDigit = true := by
    unfold characters at h
    split at h
    · exact .inl (List.mem_singleton.1 h)
    · obtain ⟨i, -, hc⟩ := List.mem_flatMap.1 h
      exact (List.mem_cons.1 hc).imp_right isDigit_of_mem_toDigits
  rw [bne_iff_ne]
  rintro rfl
  rcases hcases with rfl | hc
  · exact hslash rfl
  · simp [hdigit] at hc

end NodePath

end PlotGrammar
