import PlotGrammar.Proofs.Evaluation.Marks
import PlotGrammar.Proofs.View.Nodes

/-! # Walking down a view

  What one node of an evaluation does:

  - `checkLimit_eq_ok_iff` and `checkLimit_eq_error_iff` say what a limit
    allows and how it refuses more.
  - `evaluateAll_eq_mapM` reads the evaluation of a list as a map over its
    members and their positions.
  - `prepare_eq_ok_iff` splits the work at a node into its steps and its
    channels.
  - `evaluate_mark_eq_ok_iff` and its three siblings say what each kind of node
    gives when nothing fails; `facetPlan_eq_ok_iff` and `concatPlan_eq_ok_iff`
    do so for what is planned before the children, and `compile_eq_ok_iff` for
    all of a view.
  - `agree_evaluateAll` and `agree_panels` compare the children of a node in
    two evaluations.
-/

namespace PlotGrammar

/-! ### Limits -/

/-- What is configured for a limit. -/
def Limits.allowed (limits : Limits) : Limit → Option Nat
  | .facets => limits.maxFacets
  | .layoutChildren => limits.maxLayoutChildren
  | .markInstances => limits.maxMarkInstances

/-- A number is within a limit. One that is not set allows anything. -/
def Allows (allowed : Option Nat) (actual : Nat) : Prop :=
  ∀ most, allowed = some most → actual ≤ most

theorem checkLimit_eq_ok_iff {limit : Limit} {allowed : Option Nat} {actual : Nat} :
    checkLimit limit allowed actual = .ok () ↔ Allows allowed actual := by
  cases allowed with
  | none => simp [checkLimit, Allows]
  | some most =>
    by_cases hmost : most < actual
    · simp [checkLimit, Allows, hmost]
    · simp [checkLimit, Allows, hmost, Nat.le_of_not_lt hmost]

theorem checkLimit_eq_error_iff {limit : Limit} {allowed : Option Nat} {actual : Nat}
    {e : Failure} :
    checkLimit limit allowed actual = .error e ↔
      ∃ most, allowed = some most ∧ most < actual ∧
        e = .budgetExceeded .root limit most actual := by
  cases allowed with
  | none => simp [checkLimit]
  | some most =>
    by_cases hmost : most < actual
    · simp [checkLimit, hmost, eq_comm]
    · simp [checkLimit, hmost]

/-! ### Nodes -/

/-- The work at a node is to run its steps and to resolve its channels. -/
theorem prepare_eq_ok_iff {config : Config} {t : Table} {inherited : Channels} {head : ViewHead}
    {o : Pipeline.Outcome} {e : ResolvedEncoding} :
    prepare config t inherited head = .ok (o, e) ↔
      Pipeline.run config.maxBins t head.steps (inherit inherited head.encoding).fieldNames =
          .ok o ∧
        resolve o.table inherited head.encoding = .ok e := by
  rw [prepare, bind_eq_ok_iff]
  constructor
  · intro ⟨outcome, hrun, h⟩
    obtain ⟨encoding, hresolve, h⟩ := bind_eq_ok_iff.1 h
    cases h
    exact ⟨hrun, hresolve⟩
  · intro ⟨hrun, hresolve⟩
    exact ⟨o, hrun, bind_eq_ok_iff.2 ⟨e, hresolve, rfl⟩⟩

/-- The children of a node are evaluated one by one, each at its position. -/
theorem evaluateAll_eq_mapM (config : Config) (t : Table) (inherited : Channels) (path : NodePath)
    (index : Nat) (children : List View) :
    evaluateAll config t inherited path index children =
      (children.zipIdx index).mapM fun child =>
        evaluate config t inherited (path.child child.2) child.1 := by
  induction children generalizing index with
  | nil => rw [evaluateAll, List.zipIdx_nil, List.mapM_nil]; rfl
  | cons child children ih => rw [evaluateAll, List.zipIdx_cons, List.mapM_cons, ih]

/-! ### What a node gives -/

/-- What planning a facet takes and gives. -/
theorem facetPlan_eq_ok_iff {config : Config} {t : Table} {layout : Option Layout}
    {field : String} {composition : Composition} {cells : List Cell} :
    facetPlan config t layout field = .ok (composition, cells) ↔
      config.settleLayout layout true = .ok composition ∧ t.distinct? field = some cells ∧
      checkLimit .facets config.limits.maxFacets cells.length = .ok () ∧
      checkLimit .layoutChildren config.limits.maxLayoutChildren cells.length = .ok () := by
  rw [facetPlan, bind_eq_ok_iff]
  cases hcells : t.distinct? field with
  | none =>
    constructor
    · rintro ⟨settled, -, h⟩
      cases h
    · rintro ⟨-, h, -⟩
      cases h
  | some found =>
    simp only [bind_eq_ok_iff]
    constructor
    · rintro ⟨settled, hlayout, _, hfacets, _, hchildren, h⟩
      cases h
      exact ⟨hlayout, rfl, hfacets, hchildren⟩
    · rintro ⟨hlayout, hfound, hfacets, hchildren⟩
      cases hfound
      exact ⟨composition, hlayout, (), hfacets, (), hchildren, rfl⟩

/-- What planning a list of children takes and gives. -/
theorem concatPlan_eq_ok_iff {config : Config} {layout : Option Layout} {count : Nat}
    {composition : Composition} :
    concatPlan config layout count = .ok composition ↔
      config.settleLayout layout false = .ok composition ∧
      checkLimit .layoutChildren config.limits.maxLayoutChildren count = .ok () := by
  simp only [concatPlan, bind_eq_ok_iff]
  constructor
  · rintro ⟨settled, hlayout, _, hchildren, h⟩
    cases h
    exact ⟨hlayout, hchildren⟩
  · rintro ⟨hlayout, hchildren⟩
    exact ⟨composition, hlayout, (), hchildren, rfl⟩

/-- A mark gives what drawing it gives. -/
theorem evaluate_mark_eq_ok_iff {config : Config} {t : Table} {inherited : Channels}
    {path : NodePath} {head : ViewHead} {kind : MarkKind} {node : SceneNode} :
    evaluate config t inherited path (.mark head kind) = .ok node ↔
      ∃ o e, prepare config t inherited head = .ok (o, e) ∧
        drawMark config path kind e o = .ok node := by
  rw [evaluate, locatedAt_eq_ok_iff, bind_eq_ok_iff]
  simp only [Prod.exists]

/-- A single nested view gives its child in one place. -/
theorem evaluate_nested_eq_ok_iff {config : Config} {t : Table} {inherited : Channels}
    {path : NodePath} {head : ViewHead} {child : View} {node : SceneNode}
    (hdetail : head.encoding.detailField? = none) :
    evaluate config t inherited path (.nested head child) = .ok node ↔
      ∃ o e composition below, prepare config t inherited head = .ok (o, e) ∧
        config.settleLayout head.encoding.layout false = .ok composition ∧
        evaluate config o.table (inherit inherited head.encoding) (path.child 0) child = .ok below ∧
        node = arrange path e composition [(none, below)] := by
  rw [evaluate]
  simp only [hdetail, bind_eq_ok_iff, locatedAt_eq_ok_iff, Prod.exists]
  constructor
  · rintro ⟨o, e, hprepare, composition, hlayout, below, hbelow, hnode⟩
    exact ⟨o, e, composition, below, hprepare, hlayout, hbelow, (Except.ok.inj hnode).symm⟩
  · rintro ⟨o, e, composition, below, hprepare, hlayout, hbelow, rfl⟩
    exact ⟨o, e, hprepare, composition, hlayout, below, hbelow, rfl⟩

/-- A panel is the child over the rows of its cell. -/
theorem panel_eq_ok_iff {config : Config} {t : Table} {inherited : Channels} {path : NodePath}
    {child : View} {field : String} {cell : Cell} {panel : Option (String × Cell) × SceneNode} :
    (do
      let below ← evaluate config (t.filterEq field cell) inherited path child
      return (some (field, cell), below)) = Except.ok panel ↔
      panel.1 = some (field, cell) ∧
        evaluate config (t.filterEq field cell) inherited path child = .ok panel.2 := by
  obtain ⟨facet, below⟩ := panel
  rw [bind_eq_ok_iff]
  constructor
  · rintro ⟨other, hbelow, heq⟩
    cases heq
    exact ⟨rfl, hbelow⟩
  · rintro ⟨hfacet, hbelow⟩
    exact ⟨below, hbelow, congrArg (fun f => Except.ok (f, below)) hfacet.symm⟩

/-- A facet gives a panel for every cell that it was planned for. -/
theorem evaluate_facet_eq_ok_iff {config : Config} {t : Table} {inherited : Channels}
    {path : NodePath} {head : ViewHead} {child : View} {node : SceneNode} {field : String}
    (hdetail : head.encoding.detailField? = some field) :
    evaluate config t inherited path (.nested head child) = .ok node ↔
      ∃ o e composition cells panels, prepare config t inherited head = .ok (o, e) ∧
        facetPlan config o.table head.encoding.layout field = .ok (composition, cells) ∧
        List.Forall₂ (fun cell panel => panel.1 = some (field, cell) ∧
          evaluate config (o.table.filterEq field cell) (inherit inherited head.encoding)
            (path.child 0) child = .ok panel.2) cells panels ∧
        node = arrange path e composition panels := by
  rw [evaluate]
  simp only [hdetail, bind_eq_ok_iff, locatedAt_eq_ok_iff, Prod.exists]
  constructor
  · rintro ⟨o, e, hprepare, composition, cells, hplan, panels, hpanels, hnode⟩
    have hpanels := (mapM_eq_ok_iff.1 hpanels).imp fun _ _ => panel_eq_ok_iff.1
    exact ⟨o, e, composition, cells, panels, hprepare, hplan, hpanels, (Except.ok.inj hnode).symm⟩
  · rintro ⟨o, e, composition, cells, panels, hprepare, hplan, hpanels, rfl⟩
    have hpanels := mapM_eq_ok_iff.2 (hpanels.imp fun _ _ => panel_eq_ok_iff.2)
    exact ⟨o, e, hprepare, composition, cells, hplan, panels, hpanels, rfl⟩

/-- A list of views gives a child for every member. -/
theorem evaluate_concat_eq_ok_iff {config : Config} {t : Table} {inherited : Channels}
    {path : NodePath} {head : ViewHead} {children : List View} {node : SceneNode} :
    evaluate config t inherited path (.concat head children) = .ok node ↔
      ∃ o e composition nodes, prepare config t inherited head = .ok (o, e) ∧
        concatPlan config head.encoding.layout children.length = .ok composition ∧
        List.Forall₂ (fun child below =>
          evaluate config o.table (inherit inherited head.encoding) (path.child child.2) child.1 =
            .ok below) children.zipIdx nodes ∧
        node = arrange path e composition (nodes.map fun below => (none, below)) := by
  rw [evaluate]
  simp only [bind_eq_ok_iff, locatedAt_eq_ok_iff, Prod.exists, evaluateAll_eq_mapM, mapM_eq_ok_iff]
  constructor
  · rintro ⟨o, e, hprepare, composition, hlayout, nodes, hnodes, hnode⟩
    exact ⟨o, e, composition, nodes, hprepare, hlayout, hnodes, (Except.ok.inj hnode).symm⟩
  · rintro ⟨o, e, composition, nodes, hprepare, hlayout, hnodes, rfl⟩
    exact ⟨o, e, hprepare, composition, hlayout, nodes, hnodes, rfl⟩

/-- Compiling is checking the structure and then evaluating from the root. -/
theorem compile_eq_ok_iff {config : Config} {v : View} {t : Table} {scene : Scene} :
    compile config v t = .ok scene ↔
      v.validate = .ok () ∧ evaluate config t .empty .root v = .ok scene.root := by
  rw [compile, bind_eq_ok_iff]
  constructor
  · intro ⟨_, hvalid, h⟩
    obtain ⟨root, hroot, h⟩ := bind_eq_ok_iff.1 h
    cases h
    exact ⟨hvalid, hroot⟩
  · intro ⟨hvalid, hroot⟩
    exact ⟨(), hvalid, bind_eq_ok_iff.2 ⟨scene.root, hroot, rfl⟩⟩

/-! ### Two evaluations -/

/-- Evaluating one list in two ways agrees if it does for every member,
    wherever it stands. -/
theorem agree_evaluateAll {S : SceneNode → SceneNode → Prop} {config : Config} {t t' : Table}
    {inherited inherited' : Channels} {path : NodePath} {index : Nat} {children : List View}
    (h : ∀ child ∈ children, ∀ childPath, Agree S (evaluate config t inherited childPath child)
      (evaluate config t' inherited' childPath child)) :
    Agree (List.Forall₂ S) (evaluateAll config t inherited path index children)
      (evaluateAll config t' inherited' path index children) := by
  rw [evaluateAll_eq_mapM, evaluateAll_eq_mapM]
  apply Agree.mapM
  intro child hmem
  exact h child.1 (List.fst_mem_of_mem_zipIdx hmem) (path.child child.2)

/-- Evaluating one child over the panels of two tables agrees if it does for
    every panel; the panels then stand for the same cells. -/
theorem agree_panels {S : SceneNode → SceneNode → Prop} {config : Config} {t t' : Table}
    {inherited inherited' : Channels} {path : NodePath} {child : View} {field : String}
    {cells : List Cell}
    (h : ∀ cell ∈ cells, Agree S (evaluate config (t.filterEq field cell) inherited path child)
      (evaluate config (t'.filterEq field cell) inherited' path child)) :
    Agree (List.Forall₂ fun panel panel' => panel.1 = panel'.1 ∧ S panel.2 panel'.2)
      (cells.mapM fun cell => do
        let node ← evaluate config (t.filterEq field cell) inherited path child
        return (some (field, cell), node))
      (cells.mapM fun cell => do
        let node ← evaluate config (t'.filterEq field cell) inherited' path child
        return (some (field, cell), node)) := by
  apply Agree.mapM
  intro cell hcell
  exact (h cell hcell).bind fun node node' hnode => .ok ⟨rfl, hnode⟩

end PlotGrammar
