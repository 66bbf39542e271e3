import PlotGrammar.View.Basic

/-! # The nodes of a view

  Induction over a view (`View.induction`), where the list of an inner node
  comes with the claim for every member, and what it means that all nodes of a
  view have a property (`View.AllHeads`), kind of node by kind of node.
-/

namespace PlotGrammar

namespace View

/-- To show something of every view, show it of a mark, and of an inner node
    if it holds of the views below. -/
@[elab_as_elim, induction_eliminator]
theorem induction {motive : View → Prop} (mark : ∀ head kind, motive (.mark head kind))
    (nested : ∀ head child, motive child → motive (.nested head child))
    (concat : ∀ head children, (∀ child ∈ children, motive child) → motive (.concat head children))
    (v : View) : motive v :=
  match v with
  | .mark head kind => mark head kind
  | .nested head child => nested head child (induction mark nested concat child)
  | .concat head children =>
    concat head children fun child _ => induction mark nested concat child

/-- To show something of every view, show it of a view if it holds of its
    children, whatever kind of node it is. -/
theorem induction_children {motive : View → Prop}
    (step : ∀ v, (∀ child ∈ v.children, motive child) → motive v) (v : View) : motive v := by
  induction v with
  | mark head kind =>
    apply step
    intro child hmem
    cases hmem
  | nested head child ih =>
    apply step
    intro other hmem
    rw [List.mem_singleton.1 hmem]
    exact ih
  | concat head children ih => exact step _ ih

/-- A node at a path is the view itself or stands below one of its children. -/
theorem at?_cases {v w : View} {path : List Nat} (h : v.at? path = some w) :
    path = [] ∧ v = w ∨ ∃ index rest child, path = index :: rest ∧
      v.children[index]? = some child ∧ child.at? rest = some w := by
  cases path with
  | nil => exact .inl ⟨rfl, Option.some.inj h⟩
  | cons index rest =>
    obtain ⟨child, hchild, hat⟩ := Option.bind_eq_some_iff.1 h
    exact .inr ⟨index, rest, child, rfl, hchild, hat⟩

/-- All nodes of a view have heads with a property. -/
def AllHeads (p : ViewHead → Prop) (v : View) : Prop :=
  ∀ path w, v.at? path = some w → p w.head

variable {p : ViewHead → Prop}

/-- It is enough to look at the root and at the views below it. -/
theorem allHeads_iff {v : View} :
    v.AllHeads p ↔ p v.head ∧ ∀ child ∈ v.children, child.AllHeads p := by
  constructor
  · intro h
    refine ⟨h [] v rfl, fun child hmem path w hat => ?_⟩
    obtain ⟨index, hindex⟩ := List.mem_iff_getElem?.1 hmem
    exact h (index :: path) w (by rw [at?, hindex, Option.bind_some, hat])
  · intro ⟨hown, hchildren⟩ path w hat
    cases path with
    | nil =>
      rw [at?, Option.some.injEq] at hat
      rwa [← hat]
    | cons index path =>
      rw [at?, Option.bind_eq_some_iff] at hat
      obtain ⟨child, hindex, hat⟩ := hat
      exact hchildren child (List.mem_of_getElem? hindex) path w hat

@[simp] theorem allHeads_mark {head : ViewHead} {kind : MarkKind} :
    (mark head kind).AllHeads p ↔ p head := by
  rw [allHeads_iff]
  simp [View.head, children]

@[simp] theorem allHeads_nested {head : ViewHead} {child : View} :
    (nested head child).AllHeads p ↔ p head ∧ child.AllHeads p := by
  rw [allHeads_iff]
  simp [View.head, children]

@[simp] theorem allHeads_concat {head : ViewHead} {views : List View} :
    (concat head views).AllHeads p ↔ p head ∧ ∀ child ∈ views, child.AllHeads p := by
  rw [allHeads_iff]
  simp [View.head, children]

end View

end PlotGrammar
