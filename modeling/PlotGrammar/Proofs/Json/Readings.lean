import PlotGrammar.Proofs.Binary64.Whole
import PlotGrammar.Proofs.Json.RoundTrip

/-! # What is read of a text

  A value that is read nests no deeper than the limit, and all of its numbers
  can be written: integers have 64 bits, and every other number is a finite
  double (`fits_of_read?`). So the codec of compact texts is bounded
  (`Codec.isBounded_compact`).
-/

namespace PlotGrammar.Json

/-! ### Numbers -/

/-- A decimal is read as a finite double or not at all. -/
theorem isFinite_of_toFloat? {isNegative : Bool} {d : Decimal} {x : Float}
    (h : d.toFloat? isNegative = some x) : x.isFinite = true := by
  rw [Decimal.toFloat?_eq] at h
  dsimp only at h
  split at h
  · next hbits =>
    cases h
    exact Binary64.isFinite_ofSizeBits isNegative hbits
  · cases h

theorem isWritable_of_integer? {isNegative : Bool} {n : Nat} {number : Number}
    (h : integer? isNegative n = some number) : number.IsWritable := by
  unfold integer? at h
  split at h
  · next hnatural =>
    cases h
    rw [Bool.and_eq_true, decide_eq_true_iff] at hnatural
    exact hnatural.2
  · split at h
    · next hnegative =>
      cases h
      rw [Bool.and_eq_true, decide_eq_true_iff] at hnegative
      exact hnegative.2
    · obtain ⟨x, hx, rfl⟩ := Option.map_eq_some_iff.1 h
      exact isFinite_of_toFloat? hx

theorem isWritable_of_unsigned? {isNegative : Bool} {cs : List Char} {r : Number × List Char}
    (h : unsigned? isNegative cs = some r) : r.1.IsWritable := by
  unfold unsigned? at h
  obtain ⟨⟨whole, afterWhole⟩, -, h⟩ := Option.bind_eq_some_iff.1 h
  obtain ⟨⟨fraction, afterFraction⟩, -, h⟩ := Option.bind_eq_some_iff.1 h
  obtain ⟨⟨power, rest⟩, -, h⟩ := Option.bind_eq_some_iff.1 h
  dsimp only at h
  split at h
  · obtain ⟨number, hnumber, h⟩ := Option.bind_eq_some_iff.1 h
    cases h
    exact isWritable_of_integer? hnumber
  · obtain ⟨x, hx, h⟩ := Option.bind_eq_some_iff.1 h
    cases h
    exact isFinite_of_toFloat? hx

theorem isWritable_of_number? {cs : List Char} {r : Number × List Char} (h : number? cs = some r) :
    r.1.IsWritable := by
  unfold number? at h
  split at h
  · exact isWritable_of_unsigned? h
  · exact isWritable_of_unsigned? h

/-- A number that can be written stands for a finite double. -/
theorem Number.IsWritable.isFinite_toFloat {n : Number} (h : n.IsWritable) :
    n.toFloat.isFinite = true := by
  cases n with
  | natural n => exact Binary64.isFinite_ofNat h
  | negative n => exact Binary64.isFinite_neg_ofNat (Nat.lt_of_le_of_lt h.2 (by decide))
  | real x => exact h

/-! ### Nesting -/

theorem depthOfItems_le_iff {items : List Json} {limit : Nat} :
    depthOfItems items ≤ limit ↔ ∀ item ∈ items, item.depth ≤ limit := by
  induction items with
  | nil => simp [depthOfItems]
  | cons item items ih => simp [depthOfItems, ih]

theorem depthOfMembers_le_iff {members : List (String × Json)} {limit : Nat} :
    depthOfMembers members ≤ limit ↔ ∀ m ∈ members, m.2.depth ≤ limit := by
  induction members with
  | nil => simp [depthOfMembers]
  | cons m members ih => simp [depthOfMembers, ih]

/-! ### Values -/

/-- The value can be written and nests no deeper than a limit. -/
structure Fits (limit : Nat) (value : Json) : Prop where
  isWritable : value.IsWritable
  depth_le : value.depth ≤ limit

/-- What the readers of values, items and members give fits. -/
structure ReadsFitting (steps : Nat) : Prop where
  value : ∀ limit cs r, value? steps limit cs = some r → r.1.Fits limit
  items : ∀ limit cs r, items? steps limit cs = some r → ∀ item ∈ r.1, item.Fits limit
  members : ∀ limit cs r, members? steps limit cs = some r → ∀ m ∈ r.1, m.2.Fits limit

theorem Fits.arr {items : List Json} {limit : Nat} (hlimit : limit ≠ 0)
    (h : ∀ item ∈ items, item.Fits (limit - 1)) : (Json.arr items).Fits limit := by
  constructor
  · exact .arr fun item hitem => (h item hitem).isWritable
  · have hitems : depthOfItems items ≤ limit - 1 :=
      depthOfItems_le_iff.2 fun item hitem => (h item hitem).depth_le
    rw [depth]
    omega

theorem Fits.obj {members : List (String × Json)} {limit : Nat} (hlimit : limit ≠ 0)
    (h : ∀ m ∈ members, m.2.Fits (limit - 1)) : (Json.obj members).Fits limit := by
  constructor
  · exact .obj fun m hm => (h m hm).isWritable
  · have hmembers : depthOfMembers members ≤ limit - 1 :=
      depthOfMembers_le_iff.2 fun m hm => (h m hm).depth_le
    rw [depth]
    omega

variable {steps limit : Nat} {cs : List Char}

theorem fits_of_word? {word : List Char} {value : Json} {r : Json × List Char}
    (h : word? word value cs = some r) (hvalue : value.Fits limit) : r.1.Fits limit := by
  unfold word? at h
  split at h
  · cases h
    exact hvalue
  · cases h

theorem ReadsFitting.fits_value (h : ReadsFitting steps) {r : Json × List Char}
    (hread : value? (steps + 1) limit cs = some r) : r.1.Fits limit := by
  rw [value?] at hread
  split at hread
  · exact fits_of_word? hread ⟨.null, Nat.zero_le _⟩
  · exact fits_of_word? hread ⟨.bool true, Nat.zero_le _⟩
  · exact fits_of_word? hread ⟨.bool false, Nat.zero_le _⟩
  · obtain ⟨s, -, hread⟩ := Option.bind_eq_some_iff.1 hread
    cases hread
    exact ⟨.str _, Nat.zero_le _⟩
  · split at hread
    · cases hread
    · next hlimit =>
      split at hread
      · cases hread
        exact .arr hlimit (List.forall_mem_nil _)
      · obtain ⟨items, hitems, hread⟩ := Option.bind_eq_some_iff.1 hread
        cases hread
        exact .arr hlimit (h.items _ _ _ hitems)
  · split at hread
    · cases hread
    · next hlimit =>
      split at hread
      · cases hread
        exact .obj hlimit (List.forall_mem_nil _)
      · obtain ⟨members, hmembers, hread⟩ := Option.bind_eq_some_iff.1 hread
        cases hread
        exact .obj hlimit (h.members _ _ _ hmembers)
  · obtain ⟨n, hn, hread⟩ := Option.bind_eq_some_iff.1 hread
    cases hread
    exact ⟨.num (isWritable_of_number? hn), Nat.zero_le _⟩

theorem ReadsFitting.fits_items (h : ReadsFitting steps) {r : List Json × List Char}
    (hread : items? (steps + 1) limit cs = some r) : ∀ item ∈ r.1, item.Fits limit := by
  rw [items?] at hread
  obtain ⟨first, hfirst, hread⟩ := Option.bind_eq_some_iff.1 hread
  have hitem := h.value _ _ _ hfirst
  dsimp only at hread
  split at hread
  · obtain ⟨more, hmore, hread⟩ := Option.bind_eq_some_iff.1 hread
    cases hread
    exact List.forall_mem_cons.2 ⟨hitem, h.items _ _ _ hmore⟩
  · cases hread
    exact List.forall_mem_singleton.2 hitem
  · cases hread

theorem ReadsFitting.fits_members (h : ReadsFitting steps) {r : List (String × Json) × List Char}
    (hread : members? (steps + 1) limit cs = some r) : ∀ m ∈ r.1, m.2.Fits limit := by
  rw [members?] at hread
  split at hread
  · obtain ⟨key, -, hread⟩ := Option.bind_eq_some_iff.1 hread
    dsimp only at hread
    split at hread
    · obtain ⟨first, hfirst, hread⟩ := Option.bind_eq_some_iff.1 hread
      have hvalue := h.value _ _ _ hfirst
      split at hread
      · obtain ⟨more, hmore, hread⟩ := Option.bind_eq_some_iff.1 hread
        cases hread
        exact List.forall_mem_cons.2 ⟨hvalue, h.members _ _ _ hmore⟩
      · cases hread
        exact List.forall_mem_singleton.2 hvalue
      · cases hread
    · cases hread
  · cases hread

/-- Whatever the number of steps is. -/
theorem readsFitting (steps : Nat) : ReadsFitting steps := by
  induction steps with
  | zero =>
    constructor
    · intro limit cs r hread
      cases hread
    · intro limit cs r hread
      cases hread
    · intro limit cs r hread
      cases hread
  | succ steps ih =>
    constructor
    · intro limit cs r hread
      exact ih.fits_value hread
    · intro limit cs r hread
      exact ih.fits_items hread
    · intro limit cs r hread
      exact ih.fits_members hread

/-- What is read of a text can be written and nests no deeper than the limit. -/
theorem fits_of_read? {text : String} {value : Json} (h : read? limit text = some value) :
    value.Fits limit := by
  unfold read? ofCharacters? at h
  obtain ⟨r, hr, h⟩ := Option.bind_eq_some_iff.1 h
  have hfits := (readsFitting _).value _ _ _ hr
  dsimp only at h
  split at h
  · cases h
    exact hfits
  · cases h

/-- What is read of a compact text is within the bounds. -/
theorem Codec.isBounded_compact : compact.IsBounded where
  depth_lt _ _ h := Nat.lt_of_le_pred (by decide) (fits_of_read? h).depth_le
  isWritable _ _ h := (fits_of_read? h).isWritable

end PlotGrammar.Json
