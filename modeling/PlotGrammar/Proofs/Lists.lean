import Mathlib.Data.List.Basic
import Mathlib.Data.List.Forall2

/-! # Lists

  Facts about lists that compiling and reading make and take apart.

  `eraseDups` keeps the first of equal elements. Its equality may be any
  `BEq`, such as that of cells, which is not the equality of Lean; the
  statements ask for a lawful one only where they need it. All facts go by
  `eraseDups_induction`: the first element stays, and what is left after it is
  what is left of the others that differ from it.
-/

namespace PlotGrammar

variable {α β γ : Type}

/-! ### Without repetition -/

/-- To show something of every list and what erasing leaves of it, show it of
    the empty list, and of a list if it holds of the elements that differ from
    the first. -/
theorem eraseDups_induction [BEq α] {P : List α → List α → Prop} (nil : P [] [])
    (cons : ∀ x xs, P (xs.filter fun y => !y == x) (xs.filter fun y => !y == x).eraseDups →
      P (x :: xs) (x :: (xs.filter fun y => !y == x).eraseDups)) (xs : List α) :
    P xs xs.eraseDups := by
  -- What is left after the first element is no tail of the list, so the
  -- induction is on a bound of the length.
  suffices h : ∀ bound (xs : List α), xs.length ≤ bound → P xs xs.eraseDups from
    h xs.length xs (Nat.le_refl _)
  intro bound
  induction bound with
  | zero =>
    intro xs hlen
    have hnil : xs = [] := List.length_eq_zero_iff.1 (Nat.le_zero.1 hlen)
    rw [hnil, List.eraseDups_nil]
    exact nil
  | succ bound ih =>
    intro xs hlen
    cases xs with
    | nil => exact nil
    | cons x xs =>
      have hfilter := List.length_filter_le (fun y => !y == x) xs
      rw [List.length_cons] at hlen
      rw [List.eraseDups_cons]
      exact cons x xs (ih _ (by omega))

/-- Erasing repetitions only leaves elements out. -/
theorem eraseDups_sublist [BEq α] (xs : List α) : xs.eraseDups.Sublist xs := by
  induction xs using eraseDups_induction with
  | nil => exact List.Sublist.refl []
  | cons x xs ih => exact (ih.trans List.filter_sublist).cons_cons x

/-- What is left was there. -/
theorem mem_of_mem_eraseDups [BEq α] {x : α} {xs : List α} (h : x ∈ xs.eraseDups) : x ∈ xs :=
  (eraseDups_sublist xs).mem h

/-- Something is left of a list with elements. -/
theorem eraseDups_ne_nil [BEq α] {xs : List α} (h : xs ≠ []) : xs.eraseDups ≠ [] := by
  cases xs with
  | nil => exact absurd rfl h
  | cons x xs =>
    rw [List.eraseDups_cons]
    exact List.cons_ne_nil _ _

/-- No two of the elements that are left are equal. -/
theorem nodup_eraseDups [BEq α] [LawfulBEq α] (xs : List α) : xs.eraseDups.Nodup := by
  induction xs using eraseDups_induction with
  | nil => exact List.nodup_nil
  | cons x xs ih =>
    rw [List.nodup_cons]
    refine ⟨fun hmem => ?_, ih⟩
    have hdiffers := (List.mem_filter.1 (mem_of_mem_eraseDups hmem)).2
    simp at hdiffers

/-- Every element that is left differs from those before it. -/
theorem pairwise_eraseDups [BEq α] (xs : List α) :
    xs.eraseDups.Pairwise fun x y => (y == x) = false := by
  induction xs using eraseDups_induction with
  | nil => exact List.Pairwise.nil
  | cons x xs ih =>
    refine List.pairwise_cons.2 ⟨fun y hy => ?_, ih⟩
    have hdiffers := (List.mem_filter.1 (mem_of_mem_eraseDups hy)).2
    rwa [Bool.not_eq_true'] at hdiffers

/-- Nothing is erased if all elements differ from those before them. -/
theorem eraseDups_eq_self [BEq α] {xs : List α} (h : xs.Pairwise fun x y => (y == x) = false) :
    xs.eraseDups = xs := by
  induction xs with
  | nil => exact List.eraseDups_nil
  | cons x xs ih =>
    obtain ⟨hx, hxs⟩ := List.pairwise_cons.1 h
    have hall : xs.filter (fun y => !y == x) = xs := by
      rw [List.filter_eq_self]
      intro y hy
      rw [hx y hy, Bool.not_false]
    rw [List.eraseDups_cons, hall, ih hxs]

/-- Elements can be picked before or after, by what equal elements share. -/
theorem eraseDups_filter [BEq α] {p : α → Bool} (hp : ∀ x y, (y == x) = true → p y = p x)
    (xs : List α) : (xs.filter p).eraseDups = xs.eraseDups.filter p := by
  induction xs using eraseDups_induction with
  | nil => rfl
  | cons x xs ih =>
    have hcomm : (xs.filter p).filter (fun y => !y == x) = (xs.filter fun y => !y == x).filter p :=
      List.filter_comm _ _ xs
    by_cases hx : p x = true
    · rw [List.filter_cons_of_pos hx, List.filter_cons_of_pos hx, List.eraseDups_cons, hcomm, ih]
    · -- No element that is equal to the first one is picked either.
      have hnone : xs.filter p = (xs.filter p).filter fun y => !y == x := by
        refine (List.filter_eq_self.2 fun y hy => ?_).symm
        rw [Bool.not_eq_true']
        cases hyx : y == x with
        | false => rfl
        | true => exact absurd ((hp x y hyx).symm.trans (List.mem_filter.1 hy).2) hx
      rw [List.filter_cons_of_neg hx, List.filter_cons_of_neg hx, hnone, hcomm, ih]

/-- Of what a partial function gives on a list, an earlier value is given at an
    element before which neither it nor a later value is given. -/
theorem pairwise_eraseDups_filterMap [BEq β] [LawfulBEq β] {f : α → Option β} (xs : List α) :
    (xs.filterMap f).eraseDups.Pairwise fun y later => ∃ before x after,
      xs = before ++ x :: after ∧ f x = some y ∧
        ∀ x' ∈ before, f x' ≠ some y ∧ f x' ≠ some later := by
  induction xs with
  | nil => exact List.Pairwise.nil
  | cons x xs ih =>
    cases hx : f x with
    | none =>
      rw [List.filterMap_cons_none hx]
      refine ih.imp ?_
      rintro y later ⟨before, x', after, rfl, hx', hbefore⟩
      refine ⟨x :: before, x', after, rfl, hx', List.forall_mem_cons.2 ⟨?_, hbefore⟩⟩
      simp [hx]
    | some first =>
      rw [List.filterMap_cons_some hx, List.eraseDups_cons, eraseDups_filter (by simp +contextual),
        List.pairwise_cons]
      constructor
      · intro later _
        exact ⟨[], x, xs, rfl, hx, by simp⟩
      · -- The values that are left of the others differ from the first.
        refine (ih.sublist List.filter_sublist).imp_of_mem ?_
        rintro y later hy hlater ⟨before, x', after, rfl, hx', hbefore⟩
        refine ⟨x :: before, x', after, rfl, hx', List.forall_mem_cons.2 ⟨?_, hbefore⟩⟩
        simp only [List.mem_filter, Bool.not_eq_true', beq_eq_false_iff_ne] at hy hlater
        simp [hx, hy.2.symm, hlater.2.symm]

/-! ### Element by element -/

theorem map_eq_self_iff {f : α → α} {xs : List α} : xs.map f = xs ↔ ∀ x ∈ xs, f x = x := by
  simpa using List.map_inj_left (f := f) (g := id) (l := xs)

/-- A partial function that undoes another one up to `h`, element by element. -/
theorem mapM_map_eq_some {f : α → β} {g : β → Option γ} {h : α → γ} {xs : List α}
    (hf : ∀ x ∈ xs, g (f x) = some (h x)) : (xs.map f).mapM g = some (xs.map h) := by
  induction xs with
  | nil => rfl
  | cons x xs ih =>
    have hx := hf x List.mem_cons_self
    have hxs := ih fun y hy => hf y (List.mem_cons_of_mem _ hy)
    simp [hx, hxs]

/-- Mapping a list by a partial function succeeds exactly if it does at every
    element. -/
theorem mapM_eq_some_iff {f : α → Option β} {xs : List α} {ys : List β} :
    xs.mapM f = some ys ↔ List.Forall₂ (fun x y => f x = some y) xs ys := by
  induction xs generalizing ys with
  | nil => simp [eq_comm]
  | cons x xs ih =>
    rw [List.mapM_cons, Option.bind_eq_bind, Option.bind_eq_some_iff]
    constructor
    · intro ⟨y, hy, h⟩
      obtain ⟨rest, hrest, h⟩ := Option.bind_eq_some_iff.1 h
      cases h
      exact .cons hy (ih.1 hrest)
    · intro h
      cases h with
      | cons hy hrest => exact ⟨_, hy, Option.bind_eq_some_iff.2 ⟨_, ih.2 hrest, rfl⟩⟩

/-- Mapping a list by partial functions that are equal on it. -/
theorem mapM_eq_mapM {f g : α → Option β} {xs : List α} (h : ∀ x ∈ xs, f x = g x) :
    xs.mapM f = xs.mapM g := by
  induction xs with
  | nil => rfl
  | cons x xs ih =>
    have hx := h x List.mem_cons_self
    have hxs := ih fun y hy => h y (List.mem_cons_of_mem _ hy)
    rw [List.mapM_cons, List.mapM_cons, hx, hxs]

/-- If mapping a list succeeds, it does at every element. -/
theorem exists_of_mapM_eq_some {f : α → Option β} {xs : List α} {ys : List β}
    (h : xs.mapM f = some ys) {x : α} (hx : x ∈ xs) : ∃ y, f x = some y := by
  have hpartners := mapM_eq_some_iff.1 h
  induction hpartners with
  | nil => cases hx
  | @cons z y xs ys hzy hrest ih =>
    rcases List.mem_cons.1 hx with heq | hx
    · rw [heq]
      exact ⟨y, hzy⟩
    · exact ih (mapM_eq_some_iff.2 hrest) hx

/-- If at most one element gives something, it is the first that does in any
    order. -/
theorem findSome?_eq_of_perm {f : α → Option β} {xs ys : List α} (hperm : xs.Perm ys)
    (h : xs.Pairwise fun x y => f x = none ∨ f y = none) : xs.findSome? f = ys.findSome? f := by
  induction hperm with
  | nil => rfl
  | cons x _ ih => rw [List.findSome?_cons, List.findSome?_cons, ih (List.pairwise_cons.1 h).2]
  | swap x y xs =>
    have hxy := (List.pairwise_cons.1 h).1 x List.mem_cons_self
    rw [List.findSome?_cons, List.findSome?_cons, List.findSome?_cons, List.findSome?_cons]
    rcases hxy with hy | hx
    · rw [hy]
    · rw [hx]
  | trans hfirst _ ih ih' =>
    have hsymm : ∀ x y, (f x = none ∨ f y = none) → (f y = none ∨ f x = none) := fun _ _ => Or.symm
    rw [ih h, ih' ((hfirst.pairwise_iff (hsymm _ _)).1 h)]

/-- If at most one element gives something, it is what any of them gives. -/
theorem findSome?_eq_some_of_mem {f : α → Option β} {xs : List α}
    (h : xs.Pairwise fun x y => f x = none ∨ f y = none) {x : α} (hx : x ∈ xs) {b : β}
    (hb : f x = some b) : xs.findSome? f = some b := by
  obtain ⟨before, after, rfl⟩ := List.append_of_mem hx
  rw [findSome?_eq_of_perm List.perm_middle h, List.findSome?_cons, hb]

/-- If all elements but one give nothing, the elements together give what that
    one gives. -/
theorem flatMap_eq_of_getElem? {f : α → List β} {xs : List α} {i : Nat} {x : α}
    (hx : xs[i]? = some x) (hothers : ∀ j y, xs[j]? = some y → j ≠ i → f y = []) :
    xs.flatMap f = f x := by
  induction xs generalizing i with
  | nil => cases hx
  | cons first xs ih =>
    rw [List.flatMap_cons]
    cases i with
    | zero =>
      rw [List.getElem?_cons_zero, Option.some.injEq] at hx
      have hrest : xs.flatMap f = [] := by
        rw [List.flatMap_eq_nil_iff]
        intro y hy
        obtain ⟨j, hj⟩ := List.mem_iff_getElem?.1 hy
        exact hothers (j + 1) y hj (Nat.succ_ne_zero j)
      rw [hrest, List.append_nil, hx]
    | succ i =>
      have hfirst : f first = [] := hothers 0 first rfl (Nat.succ_ne_zero i).symm
      have hrest : xs.flatMap f = f x := by
        apply ih hx
        intro j y hy hne
        exact hothers (j + 1) y hy (fun heq => hne (Nat.succ.inj heq))
      rw [hfirst, List.nil_append, hrest]

/-- Parts that are joined after a first one stand behind a separator each. -/
theorem intercalate_cons_eq_append_flatMap (separator : α) (first : List α)
    (parts : List (List α)) :
    [separator].intercalate (first :: parts) = first ++ parts.flatMap (separator :: ·) := by
  induction parts generalizing first with
  | nil => simp
  | cons part parts ih => simp [List.intercalate_cons_cons, ih]

/-! ### Equality of images -/

/-- Two images of a list are equal if they are equal at every element. -/
theorem map_beq_map [BEq β] {f g : α → β} {xs : List α} :
    (xs.map f == xs.map g) = true ↔ ∀ x ∈ xs, (f x == g x) = true := by
  induction xs with
  | nil => simp
  | cons x xs ih =>
    rw [List.map_cons, List.map_cons, List.cons_beq_cons, Bool.and_eq_true, ih,
      List.forall_mem_cons]

theorem map_some_beq_map_some [BEq α] {xs ys : List α} :
    (xs.map some == ys.map some) = (xs == ys) := by
  induction xs generalizing ys with
  | nil =>
    cases ys with
    | nil => rfl
    | cons y ys => rfl
  | cons x xs ih =>
    cases ys with
    | nil => rfl
    | cons y ys =>
      rw [List.map_cons, List.map_cons, List.cons_beq_cons, List.cons_beq_cons, ih,
        Option.some_beq_some]

/-! ### Side by side -/

/-- Picking numbered elements without looking at the numbers. -/
theorem map_fst_filter_zipIdx (p : α → Bool) (xs : List α) :
    (xs.zipIdx.filter fun x => p x.1).map Prod.fst = xs.filter p := by
  conv => rhs; rw [← List.zipIdx_map_fst 0 xs, List.filter_map]
  rfl

/-- What is in two zipped lists comes from an element of either. -/
theorem exists_of_mem_zipWith {f : α → β → γ} {xs : List α} {ys : List β} {z : γ}
    (h : z ∈ xs.zipWith f ys) : ∃ x ∈ xs, ∃ y ∈ ys, z = f x y := by
  induction xs generalizing ys with
  | nil => cases h
  | cons x xs ih =>
    cases ys with
    | nil => cases h
    | cons y ys =>
      rw [List.zipWith_cons_cons, List.mem_cons] at h
      rcases h with hz | h
      · exact ⟨x, List.mem_cons_self, y, List.mem_cons_self, hz⟩
      · obtain ⟨x', hx, y', hy, hz⟩ := ih h
        exact ⟨x', List.mem_cons_of_mem _ hx, y', List.mem_cons_of_mem _ hy, hz⟩

/-- Zipping two lists alike on the members of the first. -/
theorem zipWith_congr_left {f g : α → β → γ} {xs : List α} (ys : List β)
    (h : ∀ x ∈ xs, ∀ y, f x y = g x y) : xs.zipWith f ys = xs.zipWith g ys := by
  induction xs generalizing ys with
  | nil => rfl
  | cons x xs ih =>
    cases ys with
    | nil => rfl
    | cons y ys =>
      rw [List.zipWith_cons_cons, List.zipWith_cons_cons, h x List.mem_cons_self,
        ih ys fun z hz => h z (List.mem_cons_of_mem _ hz)]

/-- Zipping with as many elements and keeping the left ones changes nothing. -/
theorem zipWith_left_eq_self {xs : List α} {ys : List β} (h : ys.length = xs.length) :
    xs.zipWith (fun x _ => x) ys = xs := by
  induction xs generalizing ys with
  | nil => rfl
  | cons x xs ih =>
    cases ys with
    | nil => cases h
    | cons y ys => rw [List.zipWith_cons_cons, ih (Nat.succ.inj h)]

/-! ### Values of keys -/

/-- The first pair has its value, and else those after it count. -/
theorem lookup_cons_eq_ite [BEq α] [LawfulBEq α] (key k : α) (b : β) (rest : List (α × β)) :
    List.lookup key ((k, b) :: rest) = if (key == k) = true then some b else rest.lookup key := by
  rw [List.lookup_cons]
  cases key == k with
  | true => rfl
  | false => rfl

/-- A key has a value exactly if it is in a pair. -/
theorem exists_lookup_iff [BEq α] [LawfulBEq α] {key : α} {pairs : List (α × β)} :
    (∃ b, pairs.lookup key = some b) ↔ key ∈ pairs.map Prod.fst := by
  rw [← Option.isSome_iff_exists, List.lookup_isSome_iff, List.mem_map]
  constructor
  · intro ⟨pair, hmem, hkey⟩
    exact ⟨pair, hmem, (eq_of_beq hkey).symm⟩
  · intro ⟨pair, hmem, hkey⟩
    rw [← hkey]
    exact ⟨pair, hmem, beq_self_eq_true pair.1⟩

/-- The value of a key stands beside it. -/
theorem mem_of_lookup [BEq α] [LawfulBEq α] {pairs : List (α × β)} {key : α} {b : β}
    (h : pairs.lookup key = some b) : (key, b) ∈ pairs := by
  obtain ⟨before, after, hpairs, -⟩ := List.lookup_eq_some_iff.1 h
  rw [hpairs]
  exact List.mem_append_right before List.mem_cons_self

/-- If no key is repeated, a key has the value that stands beside it. -/
theorem lookup_of_getElem? [BEq α] [LawfulBEq α] {pairs : List (α × β)}
    (h : (pairs.map Prod.fst).Nodup) {i : Nat} {key : α} {b : β} (hi : pairs[i]? = some (key, b)) :
    pairs.lookup key = some b := by
  induction pairs generalizing i with
  | nil => cases hi
  | cons pair pairs ih =>
    obtain ⟨hfirst, hrest⟩ := List.nodup_cons.1 h
    rw [lookup_cons_eq_ite]
    cases i with
    | zero =>
      cases hi
      rw [if_pos (beq_self_eq_true key)]
    | succ i =>
      rw [List.getElem?_cons_succ] at hi
      -- The key stands further on, so it is not the first one.
      have hmem : key ∈ pairs.map Prod.fst := List.mem_map_of_mem (List.mem_of_getElem? hi)
      have hne : key ≠ pair.1 := fun heq => hfirst (heq ▸ hmem)
      rw [if_neg (fun heq => hne (eq_of_beq heq))]
      exact ih hrest hi

/-! ### Erasing -/

/-- Where an element stands after another one is erased. -/
theorem findIdx?_eraseIdx {p : α → Bool} {xs : List α} {removed : Nat}
    (h : ∀ x, xs[removed]? = some x → p x = false) :
    (xs.eraseIdx removed).findIdx? p =
      (xs.findIdx? p).map fun position =>
        if removed < position then position - 1 else position := by
  induction xs generalizing removed with
  | nil => rfl
  | cons x xs ih =>
    cases removed with
    | zero =>
      have hx : p x = false := h x rfl
      rw [List.eraseIdx_cons_zero, List.findIdx?_cons, hx]
      simp [Function.comp_def]
    | succ removed =>
      -- The first element stays, and all others move within the tail.
      rw [List.eraseIdx_cons_succ, List.findIdx?_cons, List.findIdx?_cons, ih fun y hy => h y hy]
      by_cases hx : p x = true
      · simp [hx]
      · simp only [hx, Bool.false_eq_true, if_false, Option.map_map]
        congr 1
        funext position
        simp only [Function.comp_apply]
        split <;> split <;> omega

end PlotGrammar
