import PlotGrammar.Proofs.Json.Shown
import PlotGrammar.View.Printer
import PlotGrammar.View.Reader

/-! # Parts of objects

  An object is written as its named parts in their order, without those that
  are missing (`presentParts`), and what its text shows is read as what the
  texts of these parts show (`parts?_shown`). A part that may be missing is
  read by its own reader (`optionalPart?_map`).
-/

namespace PlotGrammar

/-- The members of an object: the parts that are not missing, in order. -/
def presentParts (parts : List (String × Option Json)) : List (String × Json) :=
  parts.flatMap fun part => optionalMember part.1 id part.2

theorem presentParts_cons_some (name : String) (value : Json)
    (parts : List (String × Option Json)) :
    presentParts ((name, some value) :: parts) = (name, value) :: presentParts parts := rfl

theorem presentParts_cons_none (name : String) (parts : List (String × Option Json)) :
    presentParts ((name, none) :: parts) = presentParts parts := rfl

@[simp] theorem optionalMember_some {α : Type} (key : String) (toJson : α → Json) (a : α) :
    optionalMember key toJson (some a) = [(key, toJson a)] := rfl

@[simp] theorem optionalMember_map {α : Type} (key : String) (toJson : α → Json) (a : Option α) :
    optionalMember key id (a.map toJson) = optionalMember key toJson a := by
  cases a <;> rfl

/-- The keys of the members are names of parts, in the same order. -/
theorem sublist_keys (parts : List (String × Option Json)) :
    ((presentParts parts).map Prod.fst).Sublist (parts.map Prod.fst) := by
  induction parts with
  | nil => exact .slnil
  | cons part parts ih =>
    obtain ⟨name, value⟩ := part
    cases value with
    | none => exact .cons _ ih
    | some value => exact .cons_cons _ ih

theorem allDifferent_iff {names : List String} : allDifferent names = true ↔ names.Nodup := by
  induction names with
  | nil => simp [allDifferent]
  | cons name names ih => simp [allDifferent, ih]

/-- Where all names differ, each part is found under its name. -/
theorem lookup_presentParts {parts : List (String × Option Json)} (h : (parts.map Prod.fst).Nodup) :
    (parts.map Prod.fst).map (fun name => (presentParts parts).lookup name) =
      parts.map Prod.snd := by
  induction parts with
  | nil => rfl
  | cons part parts ih =>
    obtain ⟨name, value⟩ := part
    obtain ⟨hname, hparts⟩ := List.nodup_cons.1 h
    cases value with
    | none =>
      have habsent : (presentParts parts).lookup name = none :=
        List.lookup_eq_none_iff.2 fun member hmember => by
          rw [bne_iff_ne]
          rintro rfl
          exact hname ((sublist_keys parts).subset (List.mem_map_of_mem hmember))
      rw [presentParts_cons_none, List.map_cons, List.map_cons, List.map_cons, ih hparts, habsent]
    | some value =>
      have hrest : ∀ other ∈ parts.map Prod.fst,
          ((name, value) :: presentParts parts).lookup other =
            (presentParts parts).lookup other := by
        intro other hother
        have hne : (other == name) = false := beq_false_of_ne fun heq => hname (heq ▸ hother)
        rw [List.lookup_cons, hne]
      rw [presentParts_cons_some, List.map_cons, List.map_cons, List.map_cons,
        List.lookup_cons_self, List.map_congr_left hrest, ih hparts]

theorem shown_presentParts (parts : List (String × Option Json)) :
    (Json.obj (presentParts parts)).shown =
      .obj (presentParts (parts.map fun part => (part.1, part.2.map Json.shown))) := by
  rw [Json.shown, Json.shownMembers_eq_map, Json.obj.injEq]
  induction parts with
  | nil => rfl
  | cons part parts ih =>
    obtain ⟨name, value⟩ := part
    cases value with
    | none => exact ih
    | some value => exact congrArg (List.cons (name, value.shown)) ih

/-- The parts of an object are its members, as far as there are any. -/
theorem parts?_obj (names : List String) (parts : List (String × Option Json))
    (hnames : parts.map Prod.fst = names) (h : names.Nodup) :
    parts? names (.obj (presentParts parts)) = some (parts.map Prod.snd) := by
  have hkeys := sublist_keys parts
  rw [hnames] at hkeys
  have hknown : ((presentParts parts).map Prod.fst).all names.contains = true := by
    rw [List.all_eq_true]
    intro name hname
    exact List.contains_iff_mem.2 (hkeys.subset hname)
  have hdifferent : allDifferent ((presentParts parts).map Prod.fst) = true :=
    allDifferent_iff.2 (hkeys.nodup h)
  have hfound := lookup_presentParts (hnames ▸ h)
  rw [hnames] at hfound
  simp only [parts?]
  rw [hknown, hdifferent, Bool.and_true, if_pos rfl, hfound]

/-- The parts of an object that is written are those that were written, as
    their texts show them. -/
theorem parts?_shown (names : List String) (parts : List (String × Option Json))
    (hnames : parts.map Prod.fst = names) (h : names.Nodup) :
    parts? names (Json.obj (presentParts parts)).shown =
      some (parts.map fun part => part.2.map Json.shown) := by
  rw [shown_presentParts, parts?_obj names _ (by rw [List.map_map]; exact hnames) h, List.map_map]
  rfl

theorem optionalPart?_some {α : Type} (read : Json → Option α) {value : Json} (h : value ≠ .null) :
    optionalPart? read (some value) = (read value).map some := by
  cases value with
  | null => exact absurd rfl h
  | _ => rfl

/-- A part that may be missing is read by its own reader; what that reads as
    missing counts as missing. -/
theorem optionalPart?_map {α : Type} {read : Json → Option α} {toJson : α → Json}
    {f : α → Option α} (h : ∀ a, optionalPart? read (some (toJson a).shown) = some (f a))
    (a : Option α) : optionalPart? read (a.map (Json.shown ∘ toJson)) = some (a.bind f) := by
  cases a with
  | none => rfl
  | some a => exact h a

end PlotGrammar
