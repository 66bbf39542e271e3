import PlotGrammar.Proofs.Json.Numbers
import PlotGrammar.Proofs.Json.Shown
import PlotGrammar.Proofs.Json.Strings

/-! # JSON values read back

  The text of a value is read as the value if it does not nest too deeply, and
  is refused otherwise (`read?_text`). Every value is read up to the comma or
  the bracket that follows it, for any number of steps that is at least twice
  the number of its characters. So the codec of compact texts is faithful
  (`Codec.isFaithful_compact`).
-/

namespace PlotGrammar.Json

/-! ### First characters -/

theorem skipBlanks_cons {c : Char} (h : isBlank c = false) (cs : List Char) :
    skipBlanks (c :: cs) = c :: cs :=
  List.dropWhile_cons_of_neg (by simp [h])

/-- The first character of a number stands first in no other text. -/
theorem Number.ne_of_first {c d : Char} (hc : c = '-' ∨ c.isDigit = true) (hd : d.isDigit = false)
    (hsign : d ≠ '-') : c ≠ d := by
  rintro rfl
  rcases hc with hc | hc
  · exact hsign hc
  · rw [hd] at hc
    cases hc

theorem Number.isBlank_first {c : Char} (hc : c = '-' ∨ c.isDigit = true) : isBlank c = false := by
  have hspace := Number.ne_of_first hc (d := ' ') rfl (by decide)
  have htab := Number.ne_of_first hc (d := '\t') rfl (by decide)
  have hline := Number.ne_of_first hc (d := '\n') rfl (by decide)
  have hreturn := Number.ne_of_first hc (d := '\r') rfl (by decide)
  simp [isBlank, hspace, htab, hline, hreturn]

/-- The text of a value starts neither with a blank nor with a closing bracket. -/
theorem exists_characters_eq_cons {value : Json} (h : value.IsWritable) :
    ∃ c cs, value.characters = c :: cs ∧ isBlank c = false ∧ c ≠ ']' := by
  cases h with
  | null => exact ⟨_, _, rfl, rfl, by decide⟩
  | bool value => cases value <;> exact ⟨_, _, rfl, rfl, by decide⟩
  | num h =>
    obtain ⟨c, cs, htext, hc⟩ := Number.exists_text_eq_cons h
    exact ⟨c, cs, htext, Number.isBlank_first hc, Number.ne_of_first hc rfl (by decide)⟩
  | str value => exact ⟨_, _, rfl, rfl, by decide⟩
  | arr h => exact ⟨_, _, rfl, rfl, by decide⟩
  | obj h => exact ⟨_, _, rfl, rfl, by decide⟩

/-! ### Steps of the readers -/

section

variable {steps limit : Nat} {cs rest : List Char}

theorem value?_quote (steps limit : Nat) (cs : List Char) :
    value? (steps + 1) limit ('"' :: cs) =
      (characters? steps cs).map fun r => (.str (String.ofList r.1), r.2) := by
  rw [value?]
  cases h : characters? steps cs <;> simp [skipBlanks, isBlank, h]

theorem value?_bracket {c : Char} (hc : isBlank c = false) (hne : c ≠ ']') (steps limit : Nat)
    (cs : List Char) :
    value? (steps + 1) limit ('[' :: c :: cs) =
      if limit = 0 then none
      else (items? steps (limit - 1) (c :: cs)).map fun r => (.arr r.1, r.2) := by
  rw [value?]
  have hbracket : isBlank '[' = false := rfl
  cases h : items? steps (limit - 1) (c :: cs) <;>
    simp [skipBlanks_cons hbracket, skipBlanks_cons hc, h, hne]

theorem value?_brace (steps limit : Nat) (cs : List Char) :
    value? (steps + 1) limit ('{' :: '"' :: cs) =
      if limit = 0 then none
      else (members? steps (limit - 1) ('"' :: cs)).map fun r => (.obj r.1, r.2) := by
  rw [value?]
  cases h : members? steps (limit - 1) ('"' :: cs) <;> simp [skipBlanks, isBlank, h]

theorem items?_of_none (h : value? steps limit cs = none) :
    items? (steps + 1) limit cs = none := by
  rw [items?, h]
  rfl

theorem items?_of_last {item : Json} (h : value? steps limit cs = some (item, ']' :: rest)) :
    items? (steps + 1) limit cs = some ([item], rest) := by
  rw [items?, h]
  rfl

theorem items?_of_comma {item : Json} (h : value? steps limit cs = some (item, ',' :: rest)) :
    items? (steps + 1) limit cs = (items? steps limit rest).map fun r => (item :: r.1, r.2) := by
  rw [items?, h]
  cases hmore : items? steps limit rest <;> simp [skipBlanks, isBlank, hmore]

variable {key more : List Char}

theorem members?_of_none (hkey : characters? steps cs = some (key, ':' :: more))
    (h : value? steps limit more = none) : members? (steps + 1) limit ('"' :: cs) = none := by
  rw [members?]
  simp [skipBlanks, isBlank, hkey, h]

theorem members?_of_last (hkey : characters? steps cs = some (key, ':' :: more)) {value : Json}
    (h : value? steps limit more = some (value, '}' :: rest)) :
    members? (steps + 1) limit ('"' :: cs) = some ([(String.ofList key, value)], rest) := by
  rw [members?]
  simp [skipBlanks, isBlank, hkey, h]

theorem members?_of_comma (hkey : characters? steps cs = some (key, ':' :: more)) {value : Json}
    (h : value? steps limit more = some (value, ',' :: rest)) :
    members? (steps + 1) limit ('"' :: cs) =
      (members? steps limit rest).map fun r => ((String.ofList key, value) :: r.1, r.2) := by
  rw [members?]
  cases hmore : members? steps limit rest <;> simp [skipBlanks, isBlank, hkey, h, hmore]

end

/-! ### Single values -/

/-- The text of a value is read as the value if it is not too deep. -/
def ReadsBack (value : Json) : Prop :=
  ∀ (steps limit : Nat) (rest : List Char), EndsNumber rest →
    2 * value.characters.length ≤ steps + 1 →
      value? (steps + 1) limit (value.characters ++ rest) =
        if value.depth ≤ limit then some (value, rest) else none

theorem readsBack_null : ReadsBack .null := by
  intro steps limit rest _ _
  rfl

theorem readsBack_bool (value : Bool) : ReadsBack (.bool value) := by
  intro steps limit rest _ _
  cases value <;> rfl

theorem readsBack_num {n : Number} (h : n.IsWritable) : ReadsBack (.num n) := by
  intro steps limit rest hrest _
  have hread := number?_text h hrest
  obtain ⟨c, cs, htext, hc⟩ := Number.exists_text_eq_cons h
  have hother : ∀ d : Char, d.isDigit = false → d ≠ '-' → c ≠ d := fun d =>
    Number.ne_of_first hc
  rw [htext, List.cons_append] at hread
  rw [characters, htext, List.cons_append]
  -- None of the other kinds of values starts like a number.
  simp [value?, skipBlanks_cons (Number.isBlank_first hc), hother 'n' rfl, hother 't' rfl,
    hother 'f' rfl, hother '"' rfl, hother '[' rfl, hother '{' rfl, hread, depth]

/-- A string is read after its opening quote, if there are steps for it. -/
theorem characters?_quoted (s : String) (steps : Nat) (h : (quoted s).length ≤ steps + 1)
    (rest : List Char) :
    ∃ cs, quoted s ++ rest = '"' :: cs ∧ characters? steps cs = some (s.toList, rest) := by
  have hlength := length_lt_length_quoted s
  refine ⟨s.toList.flatMap escaped ++ '"' :: rest, by simp [quoted], ?_⟩
  exact characters?_append (by omega) rest

theorem readsBack_str (s : String) : ReadsBack (.str s) := by
  intro steps limit rest _ hsteps
  rw [characters] at hsteps ⊢
  obtain ⟨cs, htext, hread⟩ := characters?_quoted s steps (by omega) rest
  rw [htext, value?_quote, hread]
  simp [depth]

/-! ### Items and members -/

theorem itemCharacters_cons_cons (item next : Json) (items : List Json) :
    itemCharacters (item :: next :: items) =
      item.characters ++ ',' :: itemCharacters (next :: items) := by
  simp [itemCharacters]

theorem memberCharacters_cons_cons (key : String) (value : Json) (next : String × Json)
    (members : List (String × Json)) :
    memberCharacters ((key, value) :: next :: members) =
      quoted key ++ ':' :: value.characters ++ ',' :: memberCharacters (next :: members) := by
  simp [memberCharacters]

/-- Some items are read up to the bracket that closes them. -/
theorem items?_append {items : List Json} (hne : items ≠ [])
    (h : ∀ item ∈ items, ReadsBack item) (steps limit : Nat) (rest : List Char)
    (hsteps : 2 * (itemCharacters items).length ≤ steps) :
    items? (steps + 2) limit (itemCharacters items ++ ']' :: rest) =
      if depthOfItems items ≤ limit then some (items, rest) else none := by
  induction items generalizing steps with
  | nil => exact absurd rfl hne
  | cons item items ih =>
    have hitem := h item List.mem_cons_self
    cases items with
    | nil =>
      rw [itemCharacters] at hsteps ⊢
      rw [depthOfItems, depthOfItems, Nat.max_zero]
      have hread := hitem steps limit (']' :: rest) (by simp [EndsNumber]) (by omega)
      split at hread
      · next hdepth => rw [items?_of_last hread, if_pos hdepth]
      · next hdepth => rw [items?_of_none hread, if_neg hdepth]
    | cons next items =>
      rw [itemCharacters_cons_cons] at hsteps ⊢
      rw [List.length_append, List.length_cons] at hsteps
      obtain ⟨steps, rfl⟩ : ∃ fewer, steps = fewer + 1 := ⟨steps - 1, by omega⟩
      have hread := hitem (steps + 1) limit (',' :: (itemCharacters (next :: items) ++ ']' :: rest))
        (by simp [EndsNumber]) (by omega)
      have hmore := ih (List.cons_ne_nil _ _) (fun i hi => h i (List.mem_cons_of_mem _ hi)) steps
        (by omega)
      rw [List.append_assoc, List.cons_append, depthOfItems]
      simp only [Nat.max_le]
      split at hread
      · next hdepth =>
        rw [items?_of_comma hread, hmore]
        by_cases hrest : depthOfItems (next :: items) ≤ limit
        · simp [hdepth, hrest]
        · simp [hrest]
      · next hdepth =>
        rw [items?_of_none hread]
        simp [hdepth]

/-- Some members are read up to the brace that closes them. -/
theorem members?_append {members : List (String × Json)} (hne : members ≠ [])
    (h : ∀ m ∈ members, ReadsBack m.2) (steps limit : Nat) (rest : List Char)
    (hsteps : 2 * (memberCharacters members).length ≤ steps) :
    members? (steps + 2) limit (memberCharacters members ++ '}' :: rest) =
      if depthOfMembers members ≤ limit then some (members, rest) else none := by
  induction members generalizing steps with
  | nil => exact absurd rfl hne
  | cons m members ih =>
    obtain ⟨key, value⟩ := m
    have hvalue : ReadsBack value := h (key, value) List.mem_cons_self
    cases members with
    | nil =>
      rw [memberCharacters] at hsteps ⊢
      rw [List.length_append, List.length_cons] at hsteps
      rw [depthOfMembers, depthOfMembers, Nat.max_zero]
      obtain ⟨cs, htext, hkey⟩ := characters?_quoted key (steps + 1) (by omega)
        (':' :: value.characters ++ '}' :: rest)
      have hread := hvalue steps limit ('}' :: rest) (by simp [EndsNumber]) (by omega)
      rw [List.append_assoc, htext]
      split at hread
      · next hdepth => rw [members?_of_last hkey hread, if_pos hdepth, String.ofList_toList]
      · next hdepth => rw [members?_of_none hkey hread, if_neg hdepth]
    | cons next members =>
      rw [memberCharacters_cons_cons] at hsteps ⊢
      simp only [List.length_append, List.length_cons] at hsteps
      obtain ⟨steps, rfl⟩ : ∃ fewer, steps = fewer + 1 := ⟨steps - 1, by omega⟩
      obtain ⟨cs, htext, hkey⟩ := characters?_quoted key (steps + 2) (by omega)
        (':' :: value.characters ++ (',' :: memberCharacters (next :: members) ++ '}' :: rest))
      have hread := hvalue (steps + 1) limit
        (',' :: (memberCharacters (next :: members) ++ '}' :: rest)) (by simp [EndsNumber])
        (by omega)
      have hmore := ih (List.cons_ne_nil _ _) (fun m hm => h m (List.mem_cons_of_mem _ hm)) steps
        (by omega)
      rw [List.append_assoc, List.append_assoc, htext, depthOfMembers]
      simp only [Nat.max_le]
      split at hread
      · next hdepth =>
        rw [members?_of_comma hkey hread, hmore, String.ofList_toList]
        by_cases hrest : depthOfMembers (next :: members) ≤ limit
        · simp [hdepth, hrest]
        · simp [hrest]
      · next hdepth =>
        rw [members?_of_none hkey hread]
        simp [hdepth]

/-- Some items start like the first of them. -/
theorem exists_itemCharacters_eq_cons {item : Json} (h : item.IsWritable) (items : List Json) :
    ∃ c cs, itemCharacters (item :: items) = c :: cs ∧ isBlank c = false ∧ c ≠ ']' := by
  obtain ⟨c, cs, htext, hc⟩ := exists_characters_eq_cons h
  cases items with
  | nil => exact ⟨c, cs, by rw [itemCharacters, htext], hc⟩
  | cons next items =>
    exact ⟨c, cs ++ ',' :: itemCharacters (next :: items),
      by rw [itemCharacters_cons_cons, htext, List.cons_append], hc⟩

/-- Some members start with the quote of the first key. -/
theorem exists_memberCharacters_eq_cons (m : String × Json) (members : List (String × Json)) :
    ∃ cs, memberCharacters (m :: members) = '"' :: cs := by
  obtain ⟨key, value⟩ := m
  cases members with
  | nil => exact ⟨_, by rw [memberCharacters, quoted, List.cons_append, List.cons_append]⟩
  | cons next members =>
    exact ⟨_, by
      rw [memberCharacters_cons_cons, quoted, List.cons_append, List.cons_append,
        List.cons_append]⟩

theorem readsBack_arr {items : List Json} (hitems : ∀ item ∈ items, IsWritable item)
    (h : ∀ item ∈ items, ReadsBack item) : ReadsBack (.arr items) := by
  intro steps limit rest _ hsteps
  cases items with
  | nil => cases limit <;> rfl
  | cons item items =>
    have htext : characters (.arr (item :: items)) ++ rest =
        '[' :: (itemCharacters (item :: items) ++ ']' :: rest) := by
      simp [characters]
    simp only [characters, List.length_append, List.length_cons, List.length_nil] at hsteps
    obtain ⟨steps, rfl⟩ : ∃ fewer, steps = fewer + 2 := ⟨steps - 2, by omega⟩
    have hread := items?_append (List.cons_ne_nil _ _) h steps (limit - 1) rest (by omega)
    obtain ⟨c, cs, hstart, hblank, hne⟩ :=
      exists_itemCharacters_eq_cons (hitems item List.mem_cons_self) items
    rw [hstart, List.cons_append] at hread
    rw [htext, hstart, List.cons_append, value?_bracket hblank hne, hread, depth]
    by_cases hlimit : limit = 0
    · simp [hlimit]
    · have hdepth : depthOfItems (item :: items) ≤ limit - 1 ↔
          depthOfItems (item :: items) + 1 ≤ limit := by omega
      simp only [hlimit, if_false, hdepth]
      split <;> rfl

theorem readsBack_obj {members : List (String × Json)} (h : ∀ m ∈ members, ReadsBack m.2) :
    ReadsBack (.obj members) := by
  intro steps limit rest _ hsteps
  cases members with
  | nil => cases limit <;> rfl
  | cons m members =>
    have htext : characters (.obj (m :: members)) ++ rest =
        '{' :: (memberCharacters (m :: members) ++ '}' :: rest) := by
      simp [characters]
    simp only [characters, List.length_append, List.length_cons, List.length_nil] at hsteps
    obtain ⟨steps, rfl⟩ : ∃ fewer, steps = fewer + 2 := ⟨steps - 2, by omega⟩
    have hread := members?_append (List.cons_ne_nil _ _) h steps (limit - 1) rest (by omega)
    obtain ⟨cs, hstart⟩ := exists_memberCharacters_eq_cons m members
    rw [hstart, List.cons_append] at hread
    rw [htext, hstart, List.cons_append, value?_brace, hread, depth]
    by_cases hlimit : limit = 0
    · simp [hlimit]
    · have hdepth : depthOfMembers (m :: members) ≤ limit - 1 ↔
          depthOfMembers (m :: members) + 1 ≤ limit := by omega
      simp only [hlimit, if_false, hdepth]
      split <;> rfl

/-! ### All values -/

/-- Every value whose numbers can be written is read back. -/
theorem IsWritable.readsBack {value : Json} (h : value.IsWritable) : ReadsBack value := by
  induction h with
  | null => exact readsBack_null
  | bool value => exact readsBack_bool value
  | num h => exact readsBack_num h
  | str s => exact readsBack_str s
  | arr hitems ih => exact readsBack_arr hitems ih
  | obj _ ih => exact readsBack_obj ih

/-- The text of a value is read as the value if it does not nest too deeply. -/
theorem read?_text {value : Json} (h : value.IsWritable) (limit : Nat) :
    read? limit value.text = if value.depth ≤ limit then some value else none := by
  have hread := h.readsBack (2 * value.characters.length + 1) limit [] (by simp [EndsNumber])
    (by omega)
  rw [List.append_nil] at hread
  rw [read?, text, String.toList_ofList, ofCharacters?, hread]
  split <;> rfl

/-! ### What is not finite -/

mutual

theorem characters_shown : ∀ value : Json, value.shown.characters = value.characters
  | .null => rfl
  | .bool _ => rfl
  | .num (.natural _) => rfl
  | .num (.negative _) => rfl
  | .num (.real x) => by
    rw [shown]
    split
    · rfl
    · next hx => rw [characters, characters, Number.text, if_neg hx]
  | .str _ => rfl
  | .arr items => by rw [shown, characters, characters, itemCharacters_shown items]
  | .obj members => by rw [shown, characters, characters, memberCharacters_shown members]

theorem itemCharacters_shown : ∀ items : List Json,
    itemCharacters (shownItems items) = itemCharacters items
  | [] => rfl
  | [item] => characters_shown item
  | item :: next :: rest => by
    have hrest := itemCharacters_shown (next :: rest)
    rw [shownItems] at hrest
    rw [shownItems, shownItems, itemCharacters_cons_cons, itemCharacters_cons_cons, hrest,
      characters_shown item]

theorem memberCharacters_shown : ∀ members : List (String × Json),
    memberCharacters (shownMembers members) = memberCharacters members
  | [] => rfl
  | [(key, value)] => by
    rw [shownMembers, shownMembers, memberCharacters, memberCharacters, characters_shown value]
  | (key, value) :: (nextKey, next) :: rest => by
    have hrest := memberCharacters_shown ((nextKey, next) :: rest)
    rw [shownMembers] at hrest
    rw [shownMembers, shownMembers, memberCharacters_cons_cons, memberCharacters_cons_cons, hrest,
      characters_shown value]

end

theorem Codec.read?_write_compact {value : Json} (h : value.IsWritable) :
    compact.read? (compact.write value) = if value.depth ≤ 127 then some value else none :=
  read?_text h 127

/-- Compact texts are read back. -/
theorem Codec.isFaithful_compact : compact.IsFaithful where
  write_shown value := congrArg String.ofList (characters_shown value)
  read?_write value hvalue hdepth := by
    rw [read?_write_compact hvalue, if_pos (Nat.le_of_lt_succ hdepth)]
  read?_write_deep value hvalue hdepth := by
    rw [read?_write_compact hvalue, if_neg (Nat.not_le_of_lt hdepth)]

end PlotGrammar.Json
