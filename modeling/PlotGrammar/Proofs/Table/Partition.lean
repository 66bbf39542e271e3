import Mathlib.Algebra.Ring.Nat
import Mathlib.Data.List.Flatten
import PlotGrammar.Proofs.Table.Fields

/-! # Splitting rows

  Grouping the rows of a table and splitting a table by the cells of a field
  put every row into exactly one part. Both are stated as permutations: the
  parts, one after the other, hold the rows of the table, each as often as the
  table does.

  - `Classes.perm_ofList`: the classes of a list hold its elements,
  - `perm_fibers`: so do the elements of each key, taken key by key,
  - `Table.perm_classes` and `Table.perm_panels` say this of the rows of a
    table.

  The two ways to split are the same one: a class holds the elements of its
  key, and the keys are the different ones in order of first appearance
  (`Classes.ofList_eq_map`). So the classes of the rows by one field are its
  different cells, each with its rows (`Table.classes_singleton`).
-/

namespace PlotGrammar

/-! ### Classes -/

namespace Classes

variable {κ α : Type} [BEq κ]

/-- One more element goes into one class. -/
theorem perm_insert (key : κ) (a : α) (classes : Classes κ α) :
    ((insert key a classes).flatMap Prod.snd).Perm (a :: classes.flatMap Prod.snd) := by
  induction classes with
  | nil => exact .refl _
  | cons c rest ih =>
    obtain ⟨other, members⟩ := c
    unfold insert
    split
    · simp only [List.flatMap_cons, List.append_assoc]
      exact List.perm_middle
    · simp only [List.flatMap_cons]
      exact (ih.append_left members).trans List.perm_middle

/-- The classes of a list hold its elements. -/
theorem perm_ofList (key : α → κ) (elements : List α) :
    ((ofList key elements).flatMap Prod.snd).Perm elements := by
  -- The classes grow from the first element on, so the claim is about what
  -- has been put into them already.
  suffices h : ∀ classes : Classes κ α,
      ((elements.foldl (fun classes a => insert (key a) a classes) classes).flatMap Prod.snd).Perm
        (classes.flatMap Prod.snd ++ elements) from h []
  induction elements with
  | nil =>
    intro classes
    rw [List.foldl_nil, List.append_nil]
  | cons a elements ih =>
    intro classes
    rw [List.foldl_cons]
    refine (ih _).trans (((perm_insert (key a) a classes).append_right elements).trans ?_)
    exact List.perm_middle.symm

end Classes

/-! ### Fibers -/

/-- Elements whose key differs from the one that is left out. -/
theorem filter_beq_of_beq_eq_false {κ α : Type} [BEq κ] [EquivBEq κ] (f : α → κ) (xs : List α)
    {k other : κ} (h : (k == other) = false) :
    (xs.filter fun x => !f x == other).filter (fun x => f x == k) =
      xs.filter fun x => f x == k := by
  rw [List.filter_filter]
  apply List.filter_congr
  intro x _
  by_cases hk : f x == k
  · have hother : (f x == other) = false := by rw [BEq.congr_left hk, h]
    simp [hk, hother]
  · simp [hk]

namespace Classes

variable {κ α : Type} [BEq κ]

/-- Once there is a class, the elements of its key go into it, and all others
    into the classes after it. -/
theorem foldl_insert_cons (key : α → κ) (k : κ) (members : List α) (rest : Classes κ α)
    (xs : List α) :
    xs.foldl (fun classes a => insert (key a) a classes) ((k, members) :: rest) =
      (k, members ++ xs.filter fun a => k == key a) ::
        (xs.filter fun a => !k == key a).foldl (fun classes a => insert (key a) a classes) rest := by
  induction xs generalizing members rest with
  | nil => simp
  | cons x xs ih =>
    rw [List.foldl_cons, insert]
    by_cases hk : (k == key x) = true
    · rw [if_pos hk, ih]
      simp [hk]
    · rw [if_neg hk, ih]
      simp [hk]

/-- The first element opens a class of its key. The other elements of the key
    follow it there, and those that differ have classes of their own. -/
theorem ofList_cons [EquivBEq κ] (key : α → κ) (x : α) (xs : List α) :
    ofList key (x :: xs) = (key x, (x :: xs).filter fun a => key a == key x) ::
      ofList key (xs.filter fun a => !key a == key x) := by
  have hcomm : ∀ a, (key x == key a) = (key a == key x) := fun a => BEq.comm
  unfold ofList
  rw [List.foldl_cons, insert, foldl_insert_cons]
  simp [hcomm]

/-- The classes of a list are its different keys in order of first appearance,
    each with the elements of the key. -/
theorem ofList_eq_map [EquivBEq κ] (key : α → κ) (xs : List α) :
    ofList key xs =
      (xs.map key).eraseDups.map fun k => (k, xs.filter fun x => key x == k) := by
  match xs with
  | [] => rfl
  | x :: xs =>
    let others := xs.filter fun a => !key a == key x
    have hothers : (x :: xs).filter (fun a => !key a == key x) = others :=
      List.filter_cons_of_neg (by simp)
    have hkeys : ((x :: xs).map key).eraseDups = key x :: (others.map key).eraseDups := by
      rw [List.map_cons, List.eraseDups_cons, List.filter_map]
      rfl
    have hrest : ofList key others =
        (others.map key).eraseDups.map fun k => (k, others.filter fun a => key a == k) :=
      ofList_eq_map key others
    rw [ofList_cons, hkeys, List.map_cons, hrest]
    congr 1
    -- The keys of the others differ from the first one.
    apply List.map_congr_left
    intro k hk
    obtain ⟨y, hy, rfl⟩ := List.mem_map.1 (mem_of_mem_eraseDups hk)
    rw [← hothers, filter_beq_of_beq_eq_false]
    simpa using (List.mem_filter.1 hy).2
termination_by xs.length
decreasing_by
  exact Nat.lt_succ_of_le (List.length_filter_le _ _)

/-- Other keys that are equal where the first ones are make the same classes. -/
theorem insert_map_key {κ' : Type} [BEq κ'] {g : κ → κ'} (hg : ∀ k k', (g k == g k') = (k == k'))
    (key : κ) (a : α) (classes : Classes κ α) :
    insert (g key) a (classes.map fun c => (g c.1, c.2)) =
      (insert key a classes).map fun c => (g c.1, c.2) := by
  induction classes with
  | nil => rfl
  | cons c rest ih =>
    obtain ⟨other, members⟩ := c
    rw [List.map_cons, insert, insert, hg]
    by_cases h : (other == key) = true
    · rw [if_pos h, if_pos h, List.map_cons]
    · rw [if_neg h, if_neg h, List.map_cons, ih]

theorem ofList_map_key {κ' : Type} [BEq κ'] {g : κ → κ'} (hg : ∀ k k', (g k == g k') = (k == k'))
    (key : α → κ) (xs : List α) :
    ofList (fun a => g (key a)) xs = (ofList key xs).map fun c => (g c.1, c.2) := by
  have hfold : ∀ classes : Classes κ α,
      xs.foldl (fun found a => insert (g (key a)) a found) (classes.map fun c => (g c.1, c.2)) =
        (xs.foldl (fun found a => insert (key a) a found) classes).map fun c => (g c.1, c.2) := by
    induction xs with
    | nil => exact fun classes => rfl
    | cons a xs ih =>
      intro classes
      rw [List.foldl_cons, List.foldl_cons, insert_map_key hg, ih]
  exact hfold []

variable [EquivBEq κ]

/-- To show something of every list and its classes, show it of the empty list,
    and of a list if it holds of the elements outside of the first class. -/
theorem ofList_induction (key : α → κ) {P : List α → Classes κ α → Prop} (nil : P [] [])
    (cons : ∀ x xs, P (xs.filter fun a => !key a == key x)
        (ofList key (xs.filter fun a => !key a == key x)) →
      P (x :: xs) ((key x, x :: xs.filter fun a => key a == key x) ::
        ofList key (xs.filter fun a => !key a == key x)))
    (xs : List α) : P xs (ofList key xs) :=
  match xs with
  | [] => nil
  | x :: xs => by
    have hfirst : (x :: xs).filter (fun a => key a == key x) =
        x :: xs.filter fun a => key a == key x := List.filter_cons_of_pos (by simp)
    rw [ofList_cons, hfirst]
    exact cons x xs (ofList_induction key nil cons _)
termination_by xs.length
decreasing_by
  exact Nat.lt_succ_of_le (List.length_filter_le _ _)

/-- A class is what the list has of its key. -/
theorem members_of_mem {key : α → κ} {xs : List α} {c : κ × List α} (h : c ∈ ofList key xs) :
    c.2 = xs.filter fun a => key a == c.1 := by
  rw [ofList_eq_map] at h
  obtain ⟨k, -, rfl⟩ := List.mem_map.1 h
  rfl

/-- A class has a first element, and its key is the key of that element. -/
theorem exists_head {key : α → κ} {xs : List α} {c : κ × List α} (h : c ∈ ofList key xs) :
    ∃ x rest, c.2 = x :: rest ∧ c.1 = key x := by
  induction xs using ofList_induction key with
  | nil => cases h
  | cons x xs ih =>
    rcases List.mem_cons.1 h with rfl | h
    · exact ⟨x, _, rfl, rfl⟩
    · exact ih h

/-- The classes are in the order of their first elements. -/
theorem pairwise_head {key : α → κ} {R : α → α → Prop} {xs : List α} (h : xs.Pairwise R) :
    (ofList key xs).Pairwise fun c later => ∀ x ∈ c.2.head?, ∀ y ∈ later.2.head?, R x y := by
  induction xs using ofList_induction key with
  | nil => exact List.Pairwise.nil
  | cons x xs ih =>
    obtain ⟨hfirst, hrest⟩ := List.pairwise_cons.1 h
    refine List.pairwise_cons.2 ⟨?_, ih (hrest.filter _)⟩
    intro later hlater y hy z hz
    rw [List.head?_cons, Option.mem_some_iff] at hy
    subst hy
    -- The members of a later class come after the element that opened the first one.
    rw [members_of_mem hlater] at hz
    have hmem := (List.mem_filter.1 (List.mem_of_mem_head? hz)).1
    exact hfirst z (List.mem_filter.1 hmem).1

end Classes

/-- The elements of each key, taken key by key, are the elements of the list. -/
theorem perm_fibers {κ α : Type} [BEq κ] [EquivBEq κ] (f : α → κ) (xs : List α) :
    ((xs.map f).eraseDups.flatMap fun k => xs.filter fun x => f x == k).Perm xs := by
  have hclasses := Classes.perm_ofList f xs
  rw [Classes.ofList_eq_map, List.flatMap_map] at hclasses
  exact hclasses

/-! ### Rows -/

namespace Table

/-- The classes of the rows of a table hold every row with its number. -/
theorem perm_classes (t : Table) (positions : List Nat) :
    ((t.classes positions).flatMap Prod.snd).Perm t.rows.zipIdx := by
  have hfound := Classes.perm_ofList (fun row => keyAt positions row.1) t.rows.zipIdx
  simp only [classes]
  split
  · -- The class that stands in for no rows has no members.
    next hempty =>
      rw [Bool.and_eq_true, List.isEmpty_iff] at hempty
      rw [hempty.1] at hfound
      exact hfound
  · exact hfound

/-- The rows, with their numbers, whose cell at a position is equal to a
    cell. -/
def rowsOf (t : Table) (position : Nat) (cell : Cell) : List (List Cell × Nat) :=
  t.rows.zipIdx.filter fun row => cellAt row.1 position == cell

/-- The different cells under a field are those at its position. -/
theorem distinct?_eq_some {t : Table} {field : String} {position : Nat}
    (h : t.fieldIndex? field = some position) :
    t.distinct? field = some (t.rows.map (cellAt · position)).eraseDups := by
  rw [distinct?, column?, h, Option.map_some, Option.map_some]

/-- The classes by a single field are those of its different cells. -/
theorem classes_singleton {t : Table} {field : String} {position : Nat} {cells : List Cell}
    (hposition : t.fieldIndex? field = some position) (hcells : t.distinct? field = some cells) :
    t.classes ([field].filterMap t.fieldIndex?) =
      cells.map fun cell => ([cell], t.rowsOf position cell) := by
  have hkey : ∀ cell cell' : Cell, ([cell] == [cell']) = (cell == cell') := by
    intro cell cell'
    simp
  have hcolumn : t.rows.zipIdx.map (fun row => cellAt row.1 position) =
      t.rows.map (cellAt · position) := by
    conv => rhs; rw [← List.zipIdx_map_fst 0 t.rows, List.map_map]
    rfl
  rw [distinct?_eq_some hposition, Option.some.injEq] at hcells
  have hclasses : Classes.ofList (fun row => cellAt row.1 position) t.rows.zipIdx =
      cells.map fun cell => (cell, t.rowsOf position cell) := by
    rw [Classes.ofList_eq_map, hcolumn, hcells]
    rfl
  have hfound : Classes.ofList (fun row => keyAt [position] row.1) t.rows.zipIdx =
      cells.map fun cell => ([cell], t.rowsOf position cell) := by
    have hkeys := Classes.ofList_map_key hkey (fun row => cellAt row.1 position) t.rows.zipIdx
    rw [hclasses, List.map_map] at hkeys
    exact hkeys
  rw [List.filterMap_cons_some hposition, List.filterMap_nil]
  -- With a position there is no class that stands in for no rows.
  simp only [classes, hfound, List.isEmpty_cons, Bool.and_false, Bool.false_eq_true, if_false]

/-- The panel of a cell has the rows of the cell. -/
theorem rows_filterEq {t : Table} {field : String} {position : Nat}
    (h : t.fieldIndex? field = some position) (cell : Cell) :
    (t.filterEq field cell).rows = (t.rowsOf position cell).map Prod.fst := by
  simp only [filterEq, h]
  exact (map_fst_filter_zipIdx (fun row => cellAt row position == cell) t.rows).symm

/-- The numbers of the rows of a cell lead to the rows. -/
theorem getElem?_rowsOf (t : Table) (position : Nat) (cell : Cell) :
    (t.rowsOf position cell).map (fun row => t.rows[row.2]?) =
      (t.rowsOf position cell).map fun row => some row.1 := by
  apply List.map_congr_left
  intro row hrow
  exact List.mem_zipIdx_iff_getElem?.1 (List.mem_filter.1 hrow).1

/-- The rows of the different cells under a field are all rows, each once. -/
theorem perm_rowsOf {t : Table} {field : String} {position : Nat} {cells : List Cell}
    (hposition : t.fieldIndex? field = some position) (hcells : t.distinct? field = some cells) :
    (cells.flatMap fun cell => (t.rowsOf position cell).map Prod.snd).Perm
      (List.range t.height) := by
  have hrows := (t.perm_classes ([field].filterMap t.fieldIndex?)).map Prod.snd
  rw [classes_singleton hposition hcells, List.flatMap_map, List.map_flatMap, List.zipIdx_map_snd,
    ← List.range_eq_range'] at hrows
  exact hrows

/-- The panels of the cells of a field hold every row. -/
theorem perm_panels {t : Table} {field : String} {cells : List Cell}
    (h : t.distinct? field = some cells) :
    (cells.flatMap fun cell => (t.filterEq field cell).rows).Perm t.rows := by
  rw [distinct?, Option.map_eq_some_iff] at h
  obtain ⟨column, hcolumn, rfl⟩ := h
  rw [column?, Option.map_eq_some_iff] at hcolumn
  obtain ⟨position, hposition, rfl⟩ := hcolumn
  simp only [filterEq, hposition]
  exact perm_fibers (cellAt · position) t.rows

/-- The panels of the cells of a field have as many rows as the table. -/
theorem sum_height_panels {t : Table} {field : String} {cells : List Cell}
    (h : t.distinct? field = some cells) :
    (cells.map fun cell => (t.filterEq field cell).height).sum = t.height := by
  rw [height, ← (perm_panels h).length_eq, List.length_flatMap]
  rfl

end Table

end PlotGrammar
