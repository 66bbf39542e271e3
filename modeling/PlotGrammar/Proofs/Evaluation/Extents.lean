import PlotGrammar.Proofs.Evaluation.Conservation
import PlotGrammar.Proofs.Evaluation.Limits

/-! # How many children and instances a scene has

  A scene that is given keeps the limits of its configuration: a leaf has no
  more instances than are allowed, a facet no more panels, and a facet or a
  list of views no more children.

  A single nested view is not counted. It has one child, which is too many only
  if no children are allowed at all; but then it is given all the same
  (`IsUncounted`). So `limits_of_compile` says of every inner node that it keeps
  the limit on children exactly if it is not such a view.
-/

namespace PlotGrammar

/-! ### Inner nodes -/

/-- Whether a node shows a single view once. -/
def View.isSingle : View → Bool
  | .nested head _ => head.encoding.detailField?.isNone
  | _ => false

/-- The node shows a single view where no children are allowed. -/
def IsUncounted (limits : Limits) (w : View) : Prop :=
  w.isSingle = true ∧ limits.maxLayoutChildren = some 0

/-- An inner node of a scene shows a single view, or it is under the limit on
    children. -/
theorem HasChildren.isSingle_or {table : Table} {path : NodePath} {w : View}
    {children : List (Placed SceneNode)} (h : HasChildren table path w children) :
    (w.isSingle = true ∧ w.isFacet = false ∧ children.length = 1) ∨
      (w.isSingle = false ∧ (w.isFacet = true ∨ w.isConcat = true)) := by
  cases h with
  | nested hdetail houtline =>
    have hlength := congrArg List.length houtline
    rw [List.length_map, List.length_singleton] at hlength
    left
    exact ⟨by simp [View.isSingle, hdetail], by simp [View.isFacet, hdetail], hlength⟩
  | facet hdetail _ _ =>
    right
    exact ⟨by simp [View.isSingle, hdetail], .inl (by simp [View.isFacet, hdetail])⟩
  | concat _ =>
    right
    exact ⟨rfl, .inr rfl⟩

/-- One child is within a limit unless the limit is zero. -/
theorem allows_one_iff {allowed : Option Nat} : Allows allowed 1 ↔ allowed ≠ some 0 := by
  unfold Allows
  constructor
  · intro h hzero
    have hle := h 0 hzero
    omega
  · intro h most hmost
    by_cases hzero : most = 0
    · rw [hzero] at hmost
      exact absurd hmost h
    · omega

/-- An inner node that keeps its own limits keeps the limit on children unless
    it is not counted. -/
theorem KeepsLimits.allows_children_iff {limits : Limits} {table : Table} {w : View}
    {head : GroupHead} {children : List (Placed SceneNode)}
    (h : KeepsLimits limits w (.group head children))
    (hchildren : HasChildren table head.path w children) :
    Allows limits.maxLayoutChildren children.length ↔ ¬ IsUncounted limits w := by
  obtain ⟨hfacet, hconcat⟩ := h
  unfold IsUncounted
  rcases hchildren.isSingle_or with ⟨hsingle, -, hone⟩ | ⟨hsingle, hcounted⟩
  · rw [hone, allows_one_iff, hsingle]
    simp
  · -- Both a facet and a list of views are checked.
    have hallows : Allows limits.maxLayoutChildren children.length := by
      rcases hcounted with hw | hw
      · exact (hfacet hw).2
      · exact hconcat hw
    rw [hsingle]
    simp [hallows]

/-! ### Scenes -/

section

variable {config : Config} {v : View} {t : Table} {scene : Scene}

/-- A leaf of a scene has an instance for every row of its table. -/
theorem instanceCount_of_mem_leaves (h : compile config v t = .ok scene) {leaf : MarkLeaf}
    (hleaf : leaf ∈ scene.leaves) : leaf.instanceCount = leaf.table.height := by
  obtain ⟨c, -, hrun⟩ := exists_reached_of_mem_leaves h hleaf
  obtain ⟨head, o, -, -, -, htable, hgroups⟩ := Call.exists_of_run_eq_marks hrun
  rw [← htable]
  exact length_instances_of_markGroups hgroups

/-- A scene that is given keeps the limits. -/
theorem withinLimits_of_compile (h : compile config v t = .ok scene) :
    scene.WithinLimits config.limits v :=
  (((filtered_compile v t).eq_ok_iff scene).1 h).2

/-- The limits hold in every scene. A leaf has at most as many instances as are
    allowed, and a facet at most as many panels. An inner node has at most as
    many children as are allowed unless it shows a single view and no children
    are allowed: then, and only then, it has one too many. -/
theorem limits_of_compile (h : compile config v t = .ok scene) :
    (∀ leaf ∈ scene.leaves, Allows config.limits.maxMarkInstances leaf.instanceCount) ∧
      ∀ head children, SceneNode.Holds (.group head children) scene.root →
        ∃ w, v.at? head.path.indices = some w ∧
          (w.isFacet = true → Allows config.limits.maxFacets children.length) ∧
          (w.isSingle = true → children.length = 1) ∧
          (Allows config.limits.maxLayoutChildren children.length ↔
            ¬ IsUncounted config.limits w) := by
  have hwithin := withinLimits_of_compile h
  constructor
  · intro leaf hleaf
    rw [instanceCount_of_mem_leaves h hleaf]
    exact hwithin.leaves leaf hleaf
  · intro head children hn
    -- The node stands for a node of the view, and has its children.
    obtain ⟨table, hmade⟩ := exists_madeOver h hn
    obtain ⟨c, o, -, -, hat, -, -, hmirrors⟩ := hmade.exists_call
    have hkeeps : KeepsLimits config.limits c.view (.group head children) :=
      ⟨hwithin.facets head children c.view hn hat, hwithin.concats head children c.view hn hat⟩
    have hchildren : HasChildren table head.path c.view children := by
      generalize c.view = w at hmirrors
      cases hmirrors with
      | group hchildren _ => exact hchildren
    refine ⟨c.view, hat, fun hfacet => (hkeeps.1 hfacet).1, ?_, hkeeps.allows_children_iff hchildren⟩
    intro hsingle
    rcases hchildren.isSingle_or with ⟨-, -, hone⟩ | ⟨hcounted, -⟩
    · exact hone
    · rw [hsingle] at hcounted
      cases hcounted

end

/-- Two of everything are allowed. -/
def twoAllowed : Config :=
  { limits := { maxFacets := some 2, maxLayoutChildren := some 2, maxMarkInstances := some 2 } }

/-- The panels of two sites are within these limits. -/
theorem limits_of_compile_of_visits :
    ∃ scene head children, compile twoAllowed sitePanels siteVisits = .ok scene ∧
      SceneNode.Holds (.group head children) scene.root ∧ head.path = .root ∧
      children.length ≤ 2 ∧ ∀ leaf ∈ scene.leaves, leaf.instanceCount ≤ 2 := by
  obtain ⟨scene, head, children, hscene, hroot, hpath⟩ :
      ∃ scene head children, compile twoAllowed sitePanels siteVisits = .ok scene ∧
        scene.root = .group head children ∧ head.path = .root :=
    ⟨_, _, _, rfl, rfl, rfl⟩
  have hself : SceneNode.Holds (.group head children) scene.root := by
    rw [hroot]
    exact .self
  obtain ⟨hleaves, hgroups⟩ := limits_of_compile hscene
  obtain ⟨w, hat, hfacets, -, -⟩ := hgroups head children hself
  rw [hpath] at hat
  have hw : w.isFacet = true := by
    rw [← Option.some.inj hat]
    rfl
  exact ⟨scene, head, children, hscene, hself, hpath, hfacets hw 2 rfl,
    fun leaf hleaf => hleaves leaf hleaf 2 rfl⟩

/-- A point inside of a view is given, although no children are allowed. -/
theorem not_allows_of_single :
    ∃ scene head children,
      compile { limits := { maxLayoutChildren := some 0 } } (.nested {} (.mark {} .point))
        siteVisits = .ok scene ∧
      SceneNode.Holds (.group head children) scene.root ∧ ¬ Allows (some 0) children.length := by
  refine ⟨_, _, _, rfl, .self, fun hallows => ?_⟩
  have hle : 1 ≤ 0 := hallows 0 rfl
  omega

end PlotGrammar
