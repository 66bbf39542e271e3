import PlotGrammar.Proofs.Evaluation.Faults
import PlotGrammar.Proofs.View.Validity

/-! # Validation before evaluation

  Compiling checks the structure of a view before it evaluates anything. The
  main result (`validate_exact`) has two sides:

  - validation refuses a view exactly if a node of it breaks a rule of
    structure, and does so at the first such node,
  - what validation lets through is never refused for its structure later on
    (`Reached.kind_ne_invalidSpec`), so compiling reports a wrong structure
    exactly if validation does, with the same failure.
-/

namespace PlotGrammar

variable {config : Config} {v : View} {t : Table} {c : Call} {e : Failure}

/-- The fault of a node that keeps the rules of structure is another one. -/
theorem HasFault.kind_ne_invalidSpec {w : View} {path : NodePath}
    {binds : Channel → Definition → Prop} (h : HasFault config w path binds e)
    (hsound : w.NodeSound) : e.kind ≠ .invalidSpec := by
  cases h with
  | spec hfault =>
    rw [ViewHead.fault?_eq_none_iff.2 hsound.head] at hfault
    cases hfault
  | noViews hconcat => exact absurd hconcat (hsound.views _)
  | _ => exact fun hkind => nomatch hkind

/-- No call that the evaluation of a sound view makes fails for a rule of
    structure. -/
theorem Reached.kind_ne_invalidSpec (hc : Reached config v t c) (hsound : v.Sound)
    (h : c.run config = .error e) : e.kind ≠ .invalidSpec := by
  obtain ⟨path, above, w, -, -, hat, hfault⟩ := hc.exists_fault h
  exact hfault.kind_ne_invalidSpec (hsound path.indices w hat)

/-- Validation accepts a view exactly if every node of it keeps the rules of
    structure, and it refuses a view exactly at the first node that breaks
    one, for the fault of that node. Compiling fails for the structure of a
    view exactly if validation fails, and then with the same failure, whatever
    the table and the configuration are. -/
theorem validate_exact (v : View) :
    (v.validate = .ok () ↔ ∀ path w, v.at? path = some w → w.NodeSound) ∧
    (∀ e, v.validate = .error e ↔ ∃ path w fault, e = .invalidSpec ⟨path⟩ fault ∧
      v.FirstOffender path w ∧ w.ownFault? = some fault) ∧
    ∀ config t e,
      compile config v t = .error e ∧ e.kind = .invalidSpec ↔ v.validate = .error e := by
  have hok : v.validate = .ok () ↔ v.Sound := View.checkAt_eq_ok_iff
  have herror : ∀ e, v.validate = .error e ↔ ∃ path w fault, e = .invalidSpec ⟨path⟩ fault ∧
      v.FirstOffender path w ∧ w.ownFault? = some fault := fun _ => View.checkAt_eq_error_iff
  refine ⟨hok, herror, ?_⟩
  intro config t e
  constructor
  · intro ⟨hcompile, hkind⟩
    rcases bind_eq_error_iff.1 hcompile with hvalidate | ⟨_, hvalidate, hevaluate⟩
    · exact hvalidate
    · have hrun : Call.run config ⟨t, .empty, .root, v⟩ = .error e := of_bind_ok_eq_error hevaluate
      exact absurd hkind (Reached.root.kind_ne_invalidSpec (hok.1 hvalidate) hrun)
  · intro hvalidate
    obtain ⟨path, w, fault, rfl, -⟩ := (herror e).1 hvalidate
    exact ⟨bind_eq_error_iff.2 (.inl hvalidate), rfl⟩

-- Two nodes break a rule; the facet comes before the list below it.
example : (View.concat {} [
    .mark {} .point,
    .nested { encoding := { detail := some (.field "" none) } } (.concat {} [])]).validate =
      .error (.invalidSpec ⟨[1]⟩ (.emptyFieldName .detail)) := rfl

end PlotGrammar
