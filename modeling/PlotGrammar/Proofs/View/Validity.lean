import PlotGrammar.Proofs.Binary64.Bits
import PlotGrammar.Proofs.Results
import PlotGrammar.Proofs.View.Nodes
import PlotGrammar.View.Validation

/-! # The rules of structure

  What is asked of every node of a view, rule by rule (`View.NodeSound`), and
  what validation makes of it:

  - the fault of a node is missing exactly if the node keeps the rules
    (`View.ownFault?_eq_none_iff`, from one lemma for every kind of part),
  - validation succeeds exactly if all nodes keep them
    (`View.checkAt_eq_ok_iff`), and fails exactly with the fault of the first
    node that does not (`View.checkAt_eq_error_iff`).

  Nodes are in order of their paths: a node comes before the nodes below it,
  and the nodes below a child come before those below a later child. That is
  the lexicographic order of the child positions.
-/

namespace PlotGrammar

/-! ### Rules -/

/-- What is asked of a bin step. -/
structure BinStep.Sound (step : BinStep) : Prop where
  out : step.out ≠ ""
  field : step.field ≠ ""
  width : ∀ w ∈ step.width, w.isFinite = true ∧ 0.0 < w
  maxBins : step.maxBins ≠ some 0

/-- What is asked of an aggregate step. The rule for the function says nothing
    of names that are unknown. -/
structure AggregateStep.Sound (step : AggregateStep) : Prop where
  out : step.out ≠ ""
  field : step.field ≠ some ""
  function : ∀ f, AggregateFunction.ofName? step.function = some f → f ≠ .count →
    step.field ≠ none

/-- What is asked of a step. -/
def Step.Sound : Step → Prop
  | .bin step => step.Sound
  | .aggregate step => step.Sound

/-- What is asked of the head of a node. -/
structure ViewHead.Sound (head : ViewHead) : Prop where
  steps : ∀ step ∈ head.steps, step.Sound
  literals : ∀ c, head.encoding.get? c ≠ some (.literal .null)
  fields : ∀ c type, head.encoding.get? c ≠ some (.field "" type)

/-- What is asked of a node itself, whatever stands below it. -/
structure View.NodeSound (v : View) : Prop where
  head : v.head.Sound
  views : ∀ head, v ≠ .concat head []

/-! ### Faults of a node -/

theorem BinStep.fault?_eq_none_iff {step : BinStep} : step.fault? = none ↔ step.Sound := by
  have hwidth : step.width.filter (fun w => !w.isFinite || w <= 0.0) = none ↔
      ∀ w ∈ step.width, w.isFinite = true ∧ 0.0 < w := by
    rw [Option.filter_eq_none_iff]
    apply forall₂_congr
    intro w _
    by_cases hfinite : w.isFinite = true
    · simp [hfinite, Binary64.not_le_zero_iff hfinite]
    · simp [hfinite]
  unfold fault?
  constructor
  · intro h
    split at h
    · cases h
    · next hout =>
      split at h
      · cases h
      · next hfield =>
        split at h
        · cases h
        · next hnone =>
          split at h
          · cases h
          · next hbins =>
            rw [String.isEmpty_iff] at hout hfield
            exact ⟨hout, hfield, hwidth.1 hnone, hbins⟩
  · intro h
    rw [if_neg (by simpa using h.out), if_neg (by simpa using h.field), hwidth.2 h.width]
    exact if_neg h.maxBins

theorem AggregateStep.fault?_eq_none_iff {step : AggregateStep} :
    step.fault? = none ↔ step.Sound := by
  obtain ⟨function, field, out⟩ := step
  have hfunction : (∀ f, AggregateFunction.ofName? function = some f → f ≠ .count → field ≠ none) ↔
      field ≠ none ∨ ∀ f, AggregateFunction.ofName? function = some f → f = .count := by
    by_cases hfield : field = none
    · simp [hfield]
    · simp [hfield]
  have hsound : Sound ⟨function, field, out⟩ ↔ out ≠ "" ∧ field ≠ some "" ∧
      (field ≠ none ∨ ∀ f, AggregateFunction.ofName? function = some f → f = .count) := by
    rw [← hfunction]
    exact ⟨fun h => ⟨h.out, h.field, h.function⟩, fun ⟨h, h', h''⟩ => ⟨h, h', h''⟩⟩
  rw [hsound, fault?]
  by_cases hout : out = ""
  · simp [hout]
  · rw [if_neg (by simpa using hout)]
    cases field with
    | some name => simp [hout]
    | none =>
      cases hname : AggregateFunction.ofName? function with
      | none => simp [hout]
      | some f => simp [hout, AggregateFunction.requiresField]

theorem Step.fault?_eq_none_iff {step : Step} : step.fault? = none ↔ step.Sound := by
  cases step with
  | bin step => exact BinStep.fault?_eq_none_iff
  | aggregate step => exact AggregateStep.fault?_eq_none_iff

theorem Definition.fault?_eq_none_iff {c : Channel} {d : Definition} :
    d.fault? c = none ↔ d ≠ .literal .null ∧ ∀ type, d ≠ .field "" type := by
  cases d with
  | field name type =>
    by_cases hname : name = ""
    · simp [fault?, hname]
    · simp [fault?, hname]
  | literal value => cases value <;> simp [fault?]

/-- The channels of an encoding are in order if every slot is. -/
theorem Encoding.findSome?_fault?_eq_none_iff {e : Encoding} :
    (e.channels.toList.findSome? fun b => b.2.fault? b.1) = none ↔
      ∀ c d, e.get? c = some d → d.fault? c = none := by
  rw [List.findSome?_eq_none_iff]
  constructor
  · intro h c d hd
    exact h (c, d) (ChannelMap.mem_toList.2 hd)
  · intro h b hb
    exact h b.1 b.2 (ChannelMap.mem_toList.1 hb)

theorem ViewHead.fault?_eq_none_iff {head : ViewHead} : head.fault? = none ↔ head.Sound := by
  unfold fault?
  rw [Option.or_eq_none_iff, List.findSome?_eq_none_iff, Encoding.findSome?_fault?_eq_none_iff]
  constructor
  · intro ⟨hsteps, hchannels⟩
    constructor
    · intro step hmem
      exact Step.fault?_eq_none_iff.1 (hsteps step hmem)
    · intro c hnull
      exact (Definition.fault?_eq_none_iff.1 (hchannels c _ hnull)).1 rfl
    · intro c type hempty
      exact (Definition.fault?_eq_none_iff.1 (hchannels c _ hempty)).2 type rfl
  · intro h
    constructor
    · intro step hmem
      exact Step.fault?_eq_none_iff.2 (h.steps step hmem)
    · intro c d hd
      apply Definition.fault?_eq_none_iff.2
      constructor
      · rintro rfl
        exact h.literals c hd
      · rintro type rfl
        exact h.fields c type hd

namespace View

/-- The fault of a node itself: of its head, or that it is a list without
    views. -/
def ownFault? (v : View) : Option SpecFault :=
  v.head.fault?.or (match v with
    | .concat _ [] => some .noViews
    | _ => none)

theorem ownFault?_eq_none_iff {v : View} : v.ownFault? = none ↔ v.NodeSound := by
  have hviews : (match v with
      | .concat _ [] => some SpecFault.noViews
      | _ => none) = none ↔ ∀ head, v ≠ .concat head [] := by
    split
    · simp
    · next h => simpa using h
  unfold ownFault?
  rw [Option.or_eq_none_iff, ViewHead.fault?_eq_none_iff, hviews]
  exact ⟨fun ⟨hhead, hne⟩ => ⟨hhead, hne⟩, fun h => ⟨h.head, h.views⟩⟩

/-! ### The first offender -/

/-- All nodes of a view keep the rules. -/
def Sound (v : View) : Prop := ∀ path w, v.at? path = some w → w.NodeSound

/-- A node breaks a rule, and no node in front of it does. -/
structure FirstOffender (v : View) (path : List Nat) (w : View) : Prop where
  at_path : v.at? path = some w
  unsound : ¬ w.NodeSound
  before : ∀ path' < path, ∀ w', v.at? path' = some w' → w'.NodeSound

variable {v w : View} {path : NodePath} {rest : List Nat} {index : Nat} {e : Failure}

theorem at?_cons {child : View} {below : List Nat} (hchild : v.children[index]? = some child) :
    v.at? (index :: below) = child.at? below := by
  rw [at?, hchild, Option.bind_some]

theorem sound_iff :
    v.Sound ↔ v.NodeSound ∧ ∀ (i : Nat) (child : View), v.children[i]? = some child → child.Sound := by
  constructor
  · intro h
    refine ⟨h [] v rfl, ?_⟩
    intro i child hchild below w hat
    exact h (i :: below) w ((at?_cons hchild).trans hat)
  · intro ⟨hown, hchildren⟩ path w hat
    rcases at?_cases hat with ⟨-, rfl⟩ | ⟨i, below, child, -, hchild, hbelow⟩
    · exact hown
    · exact hchildren i child hchild below w hbelow

/-- The first offender is the root, or the root keeps the rules and it is the
    first offender below the first child with any. -/
theorem firstOffender_iff : v.FirstOffender rest w ↔
    rest = [] ∧ w = v ∧ ¬ v.NodeSound ∨
    v.NodeSound ∧ ∃ (i : Nat) (child : View) (below : List Nat), rest = i :: below ∧
      v.children[i]? = some child ∧ child.FirstOffender below w ∧
      ∀ j < i, ∀ other, v.children[j]? = some other → other.Sound := by
  constructor
  · intro h
    rcases at?_cases h.at_path with ⟨rfl, rfl⟩ | ⟨i, below, child, rfl, hchild, hbelow⟩
    · exact .inl ⟨rfl, rfl, h.unsound⟩
    · refine .inr ⟨h.before [] (List.nil_lt_cons ..) v rfl, i, child, below, rfl, hchild, ?_, ?_⟩
      · refine ⟨hbelow, h.unsound, ?_⟩
        intro before hlt w' hat
        have hlt' : i :: before < i :: below := List.cons_lt_cons_iff.2 (.inr ⟨rfl, hlt⟩)
        exact h.before (i :: before) hlt' w' ((at?_cons hchild).trans hat)
      · intro j hj other hother before w' hat
        have hlt : j :: before < i :: below := List.cons_lt_cons_iff.2 (.inl hj)
        exact h.before (j :: before) hlt w' ((at?_cons hother).trans hat)
  · intro h
    rcases h with ⟨rfl, rfl, hunsound⟩ | ⟨hown, i, child, below, rfl, hchild, hoffender, hbefore⟩
    · refine ⟨rfl, hunsound, ?_⟩
      intro path' hlt
      exact absurd hlt (List.not_lt_nil path')
    · refine ⟨(at?_cons hchild).trans hoffender.at_path, hoffender.unsound, ?_⟩
      intro path' hlt w' hat
      rcases at?_cases hat with ⟨-, rfl⟩ | ⟨j, before, other, rfl, hother, hat⟩
      · exact hown
      · rcases List.cons_lt_cons_iff.1 hlt with hj | ⟨rfl, hbelow⟩
        · exact hbefore j hj other hother before w' hat
        · rw [hchild, Option.some.injEq] at hother
          rw [← hother] at hat
          exact hoffender.before before hbelow w' hat

/-! ### Validation -/

/-- A view is checked at its root first and then child by child. -/
theorem checkAt_eq (v : View) (path : NodePath) :
    v.checkAt path = match v.ownFault? with
      | some fault => .error (.invalidSpec path fault)
      | none => checkAllAt path 0 v.children := by
  unfold ownFault?
  cases v with
  | mark head kind =>
    rw [checkAt, ViewHead.checkAt, View.head]
    cases head.fault? with
    | none => rfl
    | some fault => rfl
  | nested head child =>
    rw [checkAt, ViewHead.checkAt, View.head]
    cases head.fault? with
    | none =>
      show child.checkAt (path.child 0) = (do child.checkAt (path.child 0); .ok ())
      cases child.checkAt (path.child 0) with
      | error e => rfl
      | ok _ => rfl
    | some fault => rfl
  | concat head children =>
    rw [checkAt, ViewHead.checkAt, View.head]
    cases head.fault? with
    | none =>
      cases children with
      | nil => rfl
      | cons child children => rfl
    | some fault => rfl

theorem checkAllAt_eq_ok_iff {views : List View} :
    checkAllAt path index views = .ok () ↔
      ∀ (i : Nat) (v : View), views[i]? = some v → v.checkAt (path.child (index + i)) = .ok () := by
  induction views generalizing index with
  | nil => simp [checkAllAt]
  | cons first views ih =>
    rw [checkAllAt, bind_eq_ok_iff]
    constructor
    · intro ⟨_, hfirst, hrest⟩ i v hv
      cases i with
      | zero =>
        obtain rfl : first = v := Option.some.inj hv
        exact hfirst
      | succ i =>
        rw [show index + (i + 1) = index + 1 + i by omega]
        exact ih.1 hrest i v hv
    · intro h
      refine ⟨(), h 0 first rfl, ih.2 ?_⟩
      intro i v hv
      rw [show index + 1 + i = index + (i + 1) by omega]
      exact h (i + 1) v hv

/-- A list of views is refused for the first of its members that is. -/
theorem checkAllAt_eq_error_iff {views : List View} :
    checkAllAt path index views = .error e ↔
      ∃ (i : Nat) (v : View), views[i]? = some v ∧ v.checkAt (path.child (index + i)) = .error e ∧
        ∀ j < i, ∀ (w : View), views[j]? = some w → w.checkAt (path.child (index + j)) = .ok () := by
  induction views generalizing index with
  | nil => simp [checkAllAt]
  | cons first views ih =>
    rw [checkAllAt, bind_eq_error_iff]
    constructor
    · rintro (hfirst | ⟨_, hfirst, hrest⟩)
      · exact ⟨0, first, rfl, hfirst, fun j hj => absurd hj (Nat.not_lt_zero j)⟩
      · obtain ⟨i, v, hv, hfail, hbefore⟩ := ih.1 hrest
        refine ⟨i + 1, v, hv, ?_, ?_⟩
        · rw [show index + (i + 1) = index + 1 + i by omega]
          exact hfail
        · intro j hj w hw
          cases j with
          | zero =>
            obtain rfl : first = w := Option.some.inj hw
            exact hfirst
          | succ j =>
            rw [show index + (j + 1) = index + 1 + j by omega]
            exact hbefore j (Nat.lt_of_succ_lt_succ hj) w hw
    · intro ⟨i, v, hv, hfail, hbefore⟩
      cases i with
      | zero =>
        obtain rfl : first = v := Option.some.inj hv
        exact .inl hfail
      | succ i =>
        refine .inr ⟨(), hbefore 0 (Nat.succ_pos i) first rfl, ih.2 ⟨i, v, hv, ?_, ?_⟩⟩
        · rw [show index + 1 + i = index + (i + 1) by omega]
          exact hfail
        · intro j hj w hw
          rw [show index + 1 + j = index + (j + 1) by omega]
          exact hbefore (j + 1) (Nat.succ_lt_succ hj) w hw

/-- Validation succeeds exactly if all nodes keep the rules. -/
theorem checkAt_eq_ok_iff : v.checkAt path = .ok () ↔ v.Sound := by
  induction v using induction_children generalizing path with
  | step v ih =>
    rw [checkAt_eq, sound_iff, ← ownFault?_eq_none_iff]
    cases hown : v.ownFault? with
    | some fault => simp
    | none =>
      show checkAllAt path 0 v.children = .ok () ↔ _
      rw [checkAllAt_eq_ok_iff]
      have hchildren : ∀ (i : Nat) (child : View), v.children[i]? = some child →
          (child.checkAt (path.child (0 + i)) = .ok () ↔ child.Sound) :=
        fun i child hchild => ih child (List.mem_of_getElem? hchild)
      constructor
      · intro h
        exact ⟨rfl, fun i child hchild => (hchildren i child hchild).1 (h i child hchild)⟩
      · intro ⟨_, h⟩ i child hchild
        exact (hchildren i child hchild).2 (h i child hchild)

/-- Validation fails exactly at the first node that breaks a rule, with the
    fault of that node. -/
theorem checkAt_eq_error_iff : v.checkAt path = .error e ↔
    ∃ rest w fault, e = .invalidSpec ⟨path.indices ++ rest⟩ fault ∧ v.FirstOffender rest w ∧
      w.ownFault? = some fault := by
  induction v using induction_children generalizing path with
  | step v ih =>
    rw [checkAt_eq]
    cases hown : v.ownFault? with
    | some fault =>
      have hunsound : ¬ v.NodeSound := by
        rw [← ownFault?_eq_none_iff, hown]
        exact Option.some_ne_none fault
      constructor
      · intro h
        have he : e = .invalidSpec ⟨path.indices ++ []⟩ fault := by
          rw [List.append_nil]
          exact (Except.error.inj h).symm
        exact ⟨[], v, fault, he, firstOffender_iff.2 (.inl ⟨rfl, rfl, hunsound⟩), hown⟩
      · intro ⟨rest, w, fault', he, hoffender, hfault⟩
        rcases firstOffender_iff.1 hoffender with ⟨rfl, rfl, -⟩ | ⟨hsound, -⟩
        · rw [hown, Option.some.injEq] at hfault
          rw [he, List.append_nil, hfault]
        · exact absurd hsound hunsound
    | none =>
      have hsound : v.NodeSound := ownFault?_eq_none_iff.1 hown
      show checkAllAt path 0 v.children = .error e ↔ _
      rw [checkAllAt_eq_error_iff]
      constructor
      · intro ⟨i, child, hchild, hfail, hbefore⟩
        obtain ⟨below, w, fault, he, hoffender, hfault⟩ :=
          (ih child (List.mem_of_getElem? hchild)).1 hfail
        refine ⟨i :: below, w, fault, ?_, ?_, hfault⟩
        · rw [he, NodePath.child, List.append_assoc, Nat.zero_add, List.singleton_append]
        · refine firstOffender_iff.2 (.inr ⟨hsound, i, child, below, rfl, hchild, hoffender, ?_⟩)
          intro j hj other hother
          exact checkAt_eq_ok_iff.1 (hbefore j hj other hother)
      · intro ⟨rest, w, fault, he, hoffender, hfault⟩
        rcases firstOffender_iff.1 hoffender with
          ⟨-, rfl, hunsound⟩ | ⟨-, i, child, below, rfl, hchild, hbelow, hbefore⟩
        · exact absurd hsound hunsound
        · refine ⟨i, child, hchild, ?_, ?_⟩
          · refine (ih child (List.mem_of_getElem? hchild)).2 ⟨below, w, fault, ?_, hbelow, hfault⟩
            rw [he, NodePath.child, List.append_assoc, Nat.zero_add, List.singleton_append]
          · intro j hj other hother
            exact checkAt_eq_ok_iff.2 (hbefore j hj other hother)

end View

end PlotGrammar
