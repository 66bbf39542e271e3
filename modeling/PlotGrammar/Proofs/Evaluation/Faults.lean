import Mathlib.Logic.Relation
import PlotGrammar.Proofs.Evaluation.Inheritance
import PlotGrammar.Proofs.View.Mentions

/-! # Where a failure comes from

  The parts of an evaluation do not know their node, so they report their
  failures at the root, and the evaluation moves each to its node on the way
  out. This module shows that no failure is left behind or moved twice: every
  failure names a node of the view, and its cause is found at that node.

  - `HasFault` lists what can be wrong with a node, with the failure that it
    leads to. Every part of the work at a node fails for one of these reasons
    (`hasFault_of_run`, `hasFault_of_resolve`, and so on).
  - A call fails for a fault of its own node, or one of the calls that it makes
    fails with the very same failure (`Call.hasFault_or_failsBelow`). So a
    failure is traced down to a call for the node that it names
    (`Call.exists_hasFault`).
  - `fault_of_compile_eq_error` says this of compiling, which also checks the
    structure of the view.
-/

namespace PlotGrammar

/-! ### Faults of a node -/

/-- The field that a step reads. -/
def Step.reads? : Step → Option String
  | .bin step => some step.field
  | .aggregate step => step.field

/-- A failure names a node by its path and says what is wrong with it; `binds`
    holds of the channel definitions that the node has, inherited or its own. -/
inductive HasFault (config : Config) (w : View) (path : NodePath)
    (binds : Channel → Definition → Prop) : Failure → Prop where
  /-- The head of the node breaks a rule of structure. -/
  | spec {fault : SpecFault} (h : w.head.fault? = some fault) :
      HasFault config w path binds (.invalidSpec path fault)
  /-- The node is a list without views. -/
  | noViews {head : ViewHead} (h : w = .concat head []) :
      HasFault config w path binds (.invalidSpec path .noViews)
  /-- A step of the node reads the unknown field. -/
  | stepField {step : Step} {field : String} (hstep : step ∈ w.head.steps)
      (hreads : step.reads? = some field) : HasFault config w path binds (.unknownField path field)
  /-- A channel of the node refers to the unknown field. -/
  | channelField {c : Channel} {field : String} {type : Option FieldType}
      (h : binds c (.field field type)) : HasFault config w path binds (.unknownField path field)
  /-- An aggregate of the node names a function that does not exist. -/
  | function {step : AggregateStep} (hstep : .aggregate step ∈ w.head.steps)
      (hname : AggregateFunction.ofName? step.function = none) :
      HasFault config w path binds (.unknownAggregate path step.function)
  /-- The layout directive of the node cannot be settled. -/
  | layout {layout : Layout} {fault : LayoutFault} (hlayout : w.head.encoding.layout = some layout)
      (hsettle : settle (some layout) w.isFacet config.wrapColumns = .error fault) :
      HasFault config w path binds (.invalidLayout path fault)
  /-- There is more than a limit allows that is set. -/
  | budget {limit : Limit} {most actual : Nat} (hlimit : config.limits.allowed limit = some most)
      (hactual : most < actual) :
      HasFault config w path binds (.budgetExceeded path limit most actual)
  /-- The buckets of a bin step cannot be computed for some cells. -/
  | aborted {step : BinStep} {cells : List Cell} {cause : Abort} (hstep : .bin step ∈ w.head.steps)
      (hfit : Binning.fit cells step.width (step.mostBins config.maxBins) = .error cause) :
      HasFault config w path binds (.aborted path cause)

section

variable {config : Config} {w : View} {path : NodePath} {binds : Channel → Definition → Prop}
  {e : Failure}

/-- A fault is reported at its node. -/
theorem HasFault.path?_eq (h : HasFault config w path binds e) : e.path? = some path := by
  cases h <;> rfl

theorem HasFault.kind_ne_setup (h : HasFault config w path binds e) : e.kind ≠ .setup := by
  cases h <;> exact fun hkind => nomatch hkind

/-- A fault stays one if more channels are bound. -/
theorem HasFault.mono {binds' : Channel → Definition → Prop} (h : HasFault config w path binds e)
    (hbinds : ∀ c d, binds c d → binds' c d) : HasFault config w path binds' e := by
  cases h with
  | spec h => exact .spec h
  | noViews h => exact .noViews h
  | stepField hstep hreads => exact .stepField hstep hreads
  | channelField h => exact .channelField (hbinds _ _ h)
  | function hstep hname => exact .function hstep hname
  | layout hlayout hsettle => exact .layout hlayout hsettle
  | budget hlimit hactual => exact .budget hlimit hactual
  | aborted hstep hfit => exact .aborted hstep hfit

/-! ### The work at a node -/

/-- A step fails for the field that it reads or for its function, or its buckets
    cannot be computed. -/
theorem hasFault_of_next {dimensions : List String} {s : Pipeline.State} {step : Step}
    (hstep : step ∈ w.head.steps) (h : s.next config.maxBins dimensions step = .error e) :
    HasFault config w path binds (e.relocate path) := by
  cases step with
  | bin step =>
    have hbinned : s.table.binned step config.maxBins = .error e := of_bind_ok_eq_error h
    rcases Table.binned_cases s.table step config.maxBins with
      ⟨-, heq⟩ | ⟨-, ⟨cells, cause, hfit, heq⟩ | ⟨labels, heq⟩⟩
    · rw [heq] at hbinned
      cases hbinned
      exact .stepField hstep rfl
    · rw [heq] at hbinned
      cases hbinned
      exact .aborted hstep hfit
    · rw [heq] at hbinned
      cases hbinned
  | aggregate step =>
    have haggregated :
        s.table.aggregated step (Pipeline.inferredGroupBy s step dimensions) = .error e :=
      of_bind_ok_eq_error h
    unfold Table.aggregated at haggregated
    split at haggregated
    · next hname =>
      cases haggregated
      exact .function hstep hname
    · have hinput : s.table.inputIndex? step = .error e := of_bind_ok_eq_error haggregated
      unfold Table.inputIndex? at hinput
      split at hinput
      · cases hinput
      · next field hfield =>
        split at hinput
        · cases hinput
        · cases hinput
          exact .stepField hstep hfield

/-- Running the steps of a node fails in one of them. -/
theorem hasFault_of_run {t : Table} {dimensions : List String}
    (h : Pipeline.run config.maxBins t w.head.steps dimensions = .error e) :
    HasFault config w path binds (e.relocate path) := by
  obtain ⟨step, hstep, s, hnext⟩ := exists_of_foldlM_eq_error (of_bind_ok_eq_error h)
  exact hasFault_of_next hstep hnext

/-- Resolving the channels of a node fails for a field that one refers to. -/
theorem hasFault_of_resolve {t : Table} {inherited : Channels}
    (hbinds : ∀ c d, (inherit inherited w.head.encoding).get? c = some d → binds c d)
    (h : resolve t inherited w.head.encoding = .error e) :
    HasFault config w path binds (e.relocate path) := by
  obtain ⟨c, d, hd, hfail⟩ := ChannelMap.exists_of_mapM_eq_error (of_bind_ok_eq_error h)
  have hbound : binds c d := hbinds c d hd
  unfold Definition.resolve at hfail
  split at hfail
  · cases hfail
  · split at hfail
    · cases hfail
    · cases hfail
      exact .channelField hbound

/-- A node without a layout directive has nothing to settle. -/
theorem hasFault_of_settleLayout
    (h : config.settleLayout w.head.encoding.layout w.isFacet = .error e) :
    HasFault config w path binds (e.relocate path) := by
  cases hlayout : w.head.encoding.layout with
  | none =>
    rw [hlayout] at h
    cases h
  | some layout =>
    rw [hlayout, Config.settleLayout] at h
    split at h
    · cases h
    · next fault hsettle =>
      cases h
      exact .layout hlayout hsettle

theorem hasFault_of_checkLimit {limit : Limit} {actual : Nat}
    (h : checkLimit limit (config.limits.allowed limit) actual = .error e) :
    HasFault config w path binds (e.relocate path) := by
  obtain ⟨most, hmost, hactual, rfl⟩ := checkLimit_eq_error_iff.1 h
  exact .budget hmost hactual

/-- Planning a facet fails for the layout, for the field of the grouping
    channel or for too many panels. -/
theorem hasFault_of_facetPlan {t : Table} {c : Channel} {field : String} {type : Option FieldType}
    (hfacet : w.isFacet = true) (hfield : binds c (.field field type))
    (h : facetPlan config t w.head.encoding.layout field = .error e) :
    HasFault config w path binds (e.relocate path) := by
  rcases bind_eq_error_iff.1 h with hlayout | ⟨composition, -, h⟩
  · rw [← hfacet] at hlayout
    exact hasFault_of_settleLayout hlayout
  · cases hcells : t.distinct? field with
    | none =>
      simp only [hcells] at h
      cases h
      exact .channelField hfield
    | some cells =>
      simp only [hcells] at h
      rcases bind_eq_error_iff.1 h with hfacets | ⟨-, -, h⟩
      · exact hasFault_of_checkLimit hfacets
      · exact hasFault_of_checkLimit (of_bind_ok_eq_error h)

theorem hasFault_of_concatPlan {count : Nat} (hfacet : w.isFacet = false)
    (h : concatPlan config w.head.encoding.layout count = .error e) :
    HasFault config w path binds (e.relocate path) := by
  rcases bind_eq_error_iff.1 h with hlayout | ⟨composition, -, h⟩
  · rw [← hfacet] at hlayout
    exact hasFault_of_settleLayout hlayout
  · exact hasFault_of_checkLimit (of_bind_ok_eq_error h)

/-- Drawing a mark fails for the layout or for too many instances only. -/
theorem hasFault_of_drawMark {kind : MarkKind} {encoding : ResolvedEncoding}
    {o : Pipeline.Outcome} (hfacet : w.isFacet = false)
    (hlayout : encoding.layout = w.head.encoding.layout) (hfields : encoding.FieldsIn o.table)
    (h : drawMark config path kind encoding o = .error e) :
    HasFault config w path binds (e.relocate path) := by
  rcases bind_eq_error_iff.1 h with hsettle | ⟨composition, -, h⟩
  · rw [hlayout, ← hfacet] at hsettle
    exact hasFault_of_settleLayout hsettle
  · rcases bind_eq_error_iff.1 h with hrows | ⟨-, -, h⟩
    · exact hasFault_of_checkLimit hrows
    · -- The groups can be formed, since the table has all fields.
      obtain ⟨groups, hgroups⟩ := exists_markGroups hfields
      rw [hgroups] at h
      cases h

end

/-! ### Calls -/

/-- The field of the grouping channel is in its slot. -/
theorem Encoding.exists_get?_detail {own : Encoding} {field : String}
    (h : own.detailField? = some field) : ∃ type, own.get? .detail = some (.field field type) := by
  obtain ⟨d, hd, hname⟩ := Option.bind_eq_some_iff.1 h
  cases d with
  | literal value => cases hname
  | field other type =>
    cases hname
    exact ⟨type, hd⟩

namespace Call

/-- The channels of the node of a call, inherited or its own. -/
def Binds (c : Call) (channel : Channel) (d : Definition) : Prop :=
  (inherit c.inherited c.view.head.encoding).get? channel = some d

/-- A failure is for a fault of the node of a call. -/
abbrev HasFault (config : Config) (c : Call) (e : Failure) : Prop :=
  PlotGrammar.HasFault config c.view c.path c.Binds e

/-- One of the calls that a call makes fails. -/
def FailsBelow (config : Config) (c : Call) (e : Failure) : Prop :=
  ∃ c', c.Makes config c' ∧ c'.run config = .error e

variable {config : Config} {t : Table} {inherited : Channels} {path : NodePath} {head : ViewHead}
  {e : Failure}

/-- Preparing a node fails for one of its steps or of its channels. -/
theorem hasFault_of_prepare {c : Call}
    (h : prepare config c.table c.inherited c.view.head = .error e) :
    c.HasFault config (e.relocate c.path) := by
  rcases bind_eq_error_iff.1 h with hrun | ⟨o, -, h⟩
  · exact hasFault_of_run hrun
  · exact hasFault_of_resolve (fun _ _ hd => hd) (of_bind_ok_eq_error h)

theorem hasFault_of_mark {kind : MarkKind}
    (h : evaluate config t inherited path (.mark head kind) = .error e) :
    HasFault config ⟨t, inherited, path, .mark head kind⟩ e := by
  rw [evaluate] at h
  obtain ⟨raised, hraised, rfl⟩ := locatedAt_eq_error_iff.1 h
  rcases bind_eq_error_iff.1 hraised with hprepare | ⟨⟨o, encoding⟩, hprepare, hdraw⟩
  · exact hasFault_of_prepare hprepare
  · have hfields := fieldsIn_of_resolve (prepare_eq_ok_iff.1 hprepare).2
    exact hasFault_of_drawMark rfl (layout_of_prepare hprepare) hfields hdraw

theorem hasFault_or_failsBelow_of_nested {child : View} (hdetail : head.encoding.detailField? = none)
    (h : evaluate config t inherited path (.nested head child) = .error e) :
    HasFault config ⟨t, inherited, path, .nested head child⟩ e ∨
      FailsBelow config ⟨t, inherited, path, .nested head child⟩ e := by
  rw [evaluate] at h
  simp only [hdetail] at h
  rcases bind_eq_error_iff.1 h with hprepare | ⟨⟨o, encoding⟩, hprepare, h⟩
  · obtain ⟨raised, hraised, rfl⟩ := locatedAt_eq_error_iff.1 hprepare
    exact .inl (hasFault_of_prepare hraised)
  rcases bind_eq_error_iff.1 h with hlayout | ⟨composition, -, h⟩
  · obtain ⟨raised, hraised, rfl⟩ := locatedAt_eq_error_iff.1 hlayout
    have hfacet : (View.nested head child).isFacet = false := by
      rw [View.isFacet, hdetail, Option.isSome_none]
    rw [← hfacet] at hraised
    exact .inl (hasFault_of_settleLayout hraised)
  · exact .inr ⟨_, .nested (locatedAt_eq_ok_iff.1 hprepare) hdetail, of_bind_ok_eq_error h⟩

theorem hasFault_or_failsBelow_of_facet {child : View} {field : String}
    (hdetail : head.encoding.detailField? = some field)
    (h : evaluate config t inherited path (.nested head child) = .error e) :
    HasFault config ⟨t, inherited, path, .nested head child⟩ e ∨
      FailsBelow config ⟨t, inherited, path, .nested head child⟩ e := by
  rw [evaluate] at h
  simp only [hdetail] at h
  rcases bind_eq_error_iff.1 h with hprepare | ⟨⟨o, encoding⟩, hprepare, h⟩
  · obtain ⟨raised, hraised, rfl⟩ := locatedAt_eq_error_iff.1 hprepare
    exact .inl (hasFault_of_prepare hraised)
  rcases bind_eq_error_iff.1 h with hplan | ⟨⟨composition, cells⟩, hplan, h⟩
  · obtain ⟨raised, hraised, rfl⟩ := locatedAt_eq_error_iff.1 hplan
    have hfacet : (View.nested head child).isFacet = true := by
      rw [View.isFacet, hdetail, Option.isSome_some]
    -- The field of the facet is bound by the node itself.
    obtain ⟨type, hfield⟩ := Encoding.exists_get?_detail hdetail
    have hbound : Binds ⟨t, inherited, path, .nested head child⟩ .detail (.field field type) := by
      show (inherit inherited head.encoding).get? .detail = some (.field field type)
      rw [inherit, ChannelMap.get?_merge, Option.or_eq_some_iff]
      exact .inl hfield
    exact .inl (hasFault_of_facetPlan hfacet hbound hraised)
  · have hcells := (facetPlan_eq_ok_iff.1 (locatedAt_eq_ok_iff.1 hplan)).2.1
    obtain ⟨cell, hcell, hpanel⟩ := exists_of_mapM_eq_error (of_bind_ok_eq_error h)
    exact .inr ⟨_, .panel (locatedAt_eq_ok_iff.1 hprepare) hdetail hcells hcell,
      of_bind_ok_eq_error hpanel⟩

theorem hasFault_or_failsBelow_of_concat {children : List View}
    (h : evaluate config t inherited path (.concat head children) = .error e) :
    HasFault config ⟨t, inherited, path, .concat head children⟩ e ∨
      FailsBelow config ⟨t, inherited, path, .concat head children⟩ e := by
  rw [evaluate] at h
  rcases bind_eq_error_iff.1 h with hprepare | ⟨⟨o, encoding⟩, hprepare, h⟩
  · obtain ⟨raised, hraised, rfl⟩ := locatedAt_eq_error_iff.1 hprepare
    exact .inl (hasFault_of_prepare hraised)
  rcases bind_eq_error_iff.1 h with hplan | ⟨composition, -, h⟩
  · obtain ⟨raised, hraised, rfl⟩ := locatedAt_eq_error_iff.1 hplan
    exact .inl (hasFault_of_concatPlan rfl hraised)
  · have hnodes := of_bind_ok_eq_error h
    rw [evaluateAll_eq_mapM] at hnodes
    obtain ⟨⟨child, index⟩, hmem, hbelow⟩ := exists_of_mapM_eq_error hnodes
    have hchild := List.mk_mem_zipIdx_iff_getElem?.1 hmem
    exact .inr ⟨_, .member (locatedAt_eq_ok_iff.1 hprepare) hchild, hbelow⟩

/-- A call fails for a fault of its node, or a call that it makes fails with
    the same failure, which is not moved again. -/
theorem hasFault_or_failsBelow {c : Call} (h : c.run config = .error e) :
    c.HasFault config e ∨ c.FailsBelow config e := by
  obtain ⟨t, inherited, path, v⟩ := c
  cases v with
  | mark head kind => exact .inl (hasFault_of_mark h)
  | nested head child =>
    cases hdetail : head.encoding.detailField? with
    | none => exact hasFault_or_failsBelow_of_nested hdetail h
    | some field => exact hasFault_or_failsBelow_of_facet hdetail h
  | concat head children => exact hasFault_or_failsBelow_of_concat h

/-! ### From a call down to the fault -/

/-- The calls that a call comes to, itself among them. -/
abbrev Leads (config : Config) : Call → Call → Prop := Relation.ReflTransGen (Makes config)

/-- The nodes of the calls that a call comes to stand at or below its node. -/
theorem Leads.prefix_path {c c' : Call} (h : c.Leads config c') :
    c.path.indices <+: c'.path.indices := by
  induction h with
  | refl => exact List.prefix_rfl
  | tail _ hmakes ih =>
    obtain ⟨index, -, hpath⟩ := hmakes.exists_child
    rw [hpath]
    exact ih.trans (List.prefix_append _ _)

/-- A call that fails comes to one that fails alike for a fault of its node. -/
theorem exists_hasFault {c : Call} (h : c.run config = .error e) :
    ∃ c', c.Leads config c' ∧ c'.HasFault config e := by
  -- Induction on the node of the call; its children are the nodes of the calls it makes.
  obtain ⟨v, hv⟩ : ∃ v, c.view = v := ⟨_, rfl⟩
  induction v using View.induction_children generalizing c with
  | step v ih =>
    rcases hasFault_or_failsBelow h with hfault | ⟨c', hmakes, hfails⟩
    · exact ⟨c, .refl, hfault⟩
    · obtain ⟨index, hchild, -⟩ := hmakes.exists_child
      rw [hv] at hchild
      obtain ⟨last, hleads, hfault⟩ := ih c'.view (List.mem_of_getElem? hchild) hfails rfl
      exact ⟨last, .head hmakes hleads, hfault⟩

end Call

/-- What a call comes to that was reached was reached. -/
theorem Reached.leads {config : Config} {v : View} {t : Table} {c c' : Call}
    (h : Reached config v t c) (hleads : c.Leads config c') : Reached config v t c' := by
  induction hleads with
  | refl => exact h
  | tail _ hmakes ih => exact ih.next hmakes

/-- If a call that was reached fails, the failure names a node at or below its
    node, and the fault is found there. -/
theorem Reached.exists_fault {config : Config} {v : View} {t : Table} {c : Call} {e : Failure}
    (hc : Reached config v t c) (h : c.run config = .error e) :
    ∃ path above w, c.path.indices <+: path.indices ∧ v.above? path.indices = some above ∧
      v.at? path.indices = some w ∧ HasFault config w path (BindsDeepest (above ++ [w])) e := by
  obtain ⟨c', hleads, hfault⟩ := Call.exists_hasFault h
  obtain ⟨above, habove, hat⟩ := (hc.leads hleads).exists_above
  refine ⟨c'.path, above, c'.view, hleads.prefix_path, habove, hat, hfault.mono ?_⟩
  intro channel d hd
  exact ((hc.leads hleads).get?_inherit_iff habove).1 hd

/-! ### Validation -/

/-- There are nodes above every node. -/
theorem View.exists_above? {v w : View} {path : List Nat} (h : v.at? path = some w) :
    ∃ above, v.above? path = some above := by
  induction path generalizing v with
  | nil => exact ⟨[], rfl⟩
  | cons index path ih =>
    obtain ⟨child, hchild, hat⟩ := Option.bind_eq_some_iff.1 h
    obtain ⟨above, habove⟩ := ih hat
    exact ⟨v :: above, by simp [above?, hchild, habove]⟩

/-- A failure is for a fault of a node at or below a view that stands at a
    path. -/
def View.HasFaultBelow (config : Config) (binds : Channel → Definition → Prop) (v : View)
    (path : NodePath) (e : Failure) : Prop :=
  ∃ rest w, v.at? rest = some w ∧ HasFault config w ⟨path.indices ++ rest⟩ binds e

section

variable {config : Config} {binds : Channel → Definition → Prop} {v child : View}
  {path : NodePath} {index : Nat} {e : Failure}

/-- A fault of the view itself is reported at its path. -/
theorem HasFault.hasFaultBelow (h : HasFault config v path binds e) :
    v.HasFaultBelow config binds path e := by
  refine ⟨[], v, rfl, ?_⟩
  rw [List.append_nil]
  exact h

/-- A fault below a child is one below the node, with the position of the
    child in front. -/
theorem View.HasFaultBelow.of_child (hchild : v.children[index]? = some child)
    (h : child.HasFaultBelow config binds (path.child index) e) :
    v.HasFaultBelow config binds path e := by
  obtain ⟨rest, w, hat, hfault⟩ := h
  rw [NodePath.child, List.append_assoc, List.singleton_append] at hfault
  refine ⟨index :: rest, w, ?_, hfault⟩
  rw [at?, hchild, Option.bind_some, hat]

theorem hasFaultBelow_of_checkAt_head (h : v.head.checkAt path = .error e) :
    v.HasFaultBelow config binds path e := by
  unfold ViewHead.checkAt at h
  split at h
  · next fault hfault =>
    cases h
    exact HasFault.hasFaultBelow (.spec hfault)
  · cases h

/-- If a list of views is refused, one of its members is, at its position. -/
theorem exists_of_checkAllAt_eq_error {views : List View}
    (h : View.checkAllAt path index views = .error e) :
    ∃ i view, views[i]? = some view ∧ View.checkAt (path.child (index + i)) view = .error e := by
  induction views generalizing index with
  | nil => cases h
  | cons view views ih =>
    rw [View.checkAllAt] at h
    rcases bind_eq_error_iff.1 h with hfirst | ⟨-, -, hrest⟩
    · exact ⟨0, view, rfl, hfirst⟩
    · obtain ⟨i, found, hfound, hfail⟩ := ih hrest
      refine ⟨i + 1, found, hfound, ?_⟩
      rw [show index + (i + 1) = index + 1 + i by omega]
      exact hfail

/-- A view that is refused has a node with a fault of structure. -/
theorem hasFaultBelow_of_checkAt (h : v.checkAt path = .error e) :
    v.HasFaultBelow config binds path e := by
  induction v generalizing path with
  | mark head kind => exact hasFaultBelow_of_checkAt_head h
  | nested head child ih =>
    rw [View.checkAt] at h
    rcases bind_eq_error_iff.1 h with hown | ⟨-, -, hchild⟩
    · exact hasFaultBelow_of_checkAt_head hown
    · have hindex : (View.nested head child).children[0]? = some child := rfl
      exact .of_child hindex (ih hchild)
  | concat head children ih =>
    rw [View.checkAt] at h
    rcases bind_eq_error_iff.1 h with hown | ⟨-, -, h⟩
    · exact hasFaultBelow_of_checkAt_head hown
    by_cases hempty : children.isEmpty = true
    · rw [if_pos hempty] at h
      cases h
      rw [List.isEmpty_iff] at hempty
      exact HasFault.hasFaultBelow (.noViews (by rw [hempty]))
    · rw [if_neg hempty] at h
      obtain ⟨i, child, hchild, hfail⟩ := exists_of_checkAllAt_eq_error h
      rw [Nat.zero_add] at hfail
      exact .of_child hchild (ih child (List.mem_of_getElem? hchild) hfail)

end

/-! ### Compiling -/

/-- A failure of compiling is none of the setup. It names a node of the view,
    and its cause is found there: a rule of structure that the node breaks, a
    field that a step of the node reads or that a channel of the node or of one
    above it refers to, the function of an aggregate of the node, the layout
    directive of the node, or a limit that is set and was exceeded. A failure
    in a panel of a facet is one at or below the child of the facet, whichever
    panel it is. -/
theorem fault_of_compile_eq_error {config : Config} {v : View} {t : Table} {e : Failure}
    (h : compile config v t = .error e) :
    e.kind ≠ .setup ∧ ∃ path above w, e.path? = some path ∧
      v.above? path.indices = some above ∧ v.at? path.indices = some w ∧
      HasFault config w path (BindsDeepest (above ++ [w])) e ∧
      ∀ c c', Reached config v t c → c.view.isFacet = true → c.Makes config c' →
        c'.run config = .error e → (c.path.child 0).indices <+: path.indices := by
  have hfault : ∃ path above w, v.above? path.indices = some above ∧
      v.at? path.indices = some w ∧ HasFault config w path (BindsDeepest (above ++ [w])) e := by
    rcases bind_eq_error_iff.1 h with hvalidate | ⟨-, -, h⟩
    · -- Validation looks at no channel that is inherited.
      have hbelow : v.HasFaultBelow config (fun _ _ => False) .root e :=
        hasFaultBelow_of_checkAt hvalidate
      obtain ⟨path, w, hat, hfault⟩ := hbelow
      obtain ⟨above, habove⟩ := View.exists_above? hat
      exact ⟨⟨path⟩, above, w, habove, hat, hfault.mono fun _ _ hno => hno.elim⟩
    · have hrun : Call.run config ⟨t, .empty, .root, v⟩ = .error e := of_bind_ok_eq_error h
      obtain ⟨path, above, w, -, habove, hat, hfault⟩ := Reached.root.exists_fault hrun
      exact ⟨path, above, w, habove, hat, hfault⟩
  obtain ⟨path, above, w, habove, hat, hfault⟩ := hfault
  refine ⟨hfault.kind_ne_setup, path, above, w, hfault.path?_eq, habove, hat, hfault, ?_⟩
  intro c c' hc hfacet hmakes hrun
  -- The failure has one path, and it leads on from the panel.
  obtain ⟨path', above', w', hprefix, -, -, hfault'⟩ := (hc.next hmakes).exists_fault hrun
  have hpath : some path' = some path := hfault'.path?_eq.symm.trans hfault.path?_eq
  rw [← Option.some.inj hpath]
  have hchild : c'.path = c.path.child 0 := by
    cases hmakes with
    | nested _ _ => rfl
    | panel _ _ _ _ => rfl
    | member _ _ => cases hfacet
  rwa [← hchild]

/-- Beside points, a bar for every site that sums up the lengths, below a
    height that is the length itself. -/
def summedSites : View :=
  .concat {} [
    .mark {} .point,
    .nested
      { encoding := { y := some (.field "length" none), detail := some (.field "site" none) } }
      (.mark { steps := [.aggregate ⟨"sum", some "length", "total"⟩] } .bar)]

/-- The sum leaves no lengths for the height, which the panels inherit; the
    failure names the bar, though the node above it binds the height. -/
theorem fault_of_compile_eq_error_of_sites :
    compile {} summedSites ⟨["site", "length"], [[.text "B", .num 1.0], [.text "A", .num 5.0]]⟩ =
        .error (.unknownField ⟨[1, 0]⟩ "length") ∧
      ∃ above w, summedSites.above? [1, 0] = some above ∧ summedSites.at? [1, 0] = some w ∧
        HasFault {} w ⟨[1, 0]⟩ (BindsDeepest (above ++ [w])) (.unknownField ⟨[1, 0]⟩ "length") := by
  have h : compile {} summedSites
      ⟨["site", "length"], [[.text "B", .num 1.0], [.text "A", .num 5.0]]⟩ =
        .error (.unknownField ⟨[1, 0]⟩ "length") := rfl
  obtain ⟨-, path, above, w, hpath, habove, hat, hfault, -⟩ := fault_of_compile_eq_error h
  obtain rfl : ⟨[1, 0]⟩ = path := Option.some.inj hpath
  exact ⟨h, above, w, habove, hat, hfault⟩

end PlotGrammar
