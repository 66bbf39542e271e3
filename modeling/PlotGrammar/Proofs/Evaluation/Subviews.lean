import PlotGrammar.Proofs.Evaluation.Structure

/-! # Views inside of views

  A view that stands somewhere below the root of another one does what it does
  alone: its scene is the same, and so is its failure, but all paths start with
  the way to its place. `moved` puts a position in front of the paths of a
  result, and both validation and evaluation commute with it
  (`checkAt_under`, `evaluate_under`).

  So an inner node that derives nothing and binds nothing only collects what
  its views give alone, in one layer (`compile_collects`).
-/

namespace PlotGrammar

/-! ### Moving a result -/

/-- The path below the child at a position. -/
def NodePath.under (p : NodePath) (index : Nat) : NodePath := ⟨index :: p.indices⟩

/-- The failure with a position in front of its path; one outside of any node
    stays as it is. -/
def Failure.under (e : Failure) (index : Nat) : Failure :=
  match e.path? with
  | some p => e.relocate (p.under index)
  | none => e

namespace SceneNode

mutual

/-- The node with a position in front of all of its paths. -/
def under (index : Nat) : SceneNode → SceneNode
  | .marks leaf => .marks { leaf with path := leaf.path.under index }
  | .group head children =>
    .group { head with path := head.path.under index } (underOf index children)

/-- Children with a position in front of all of their paths. -/
def underOf (index : Nat) : List (Placed SceneNode) → List (Placed SceneNode)
  | [] => []
  | ⟨placement, facet, node⟩ :: rest => ⟨placement, facet, node.under index⟩ :: underOf index rest

end

theorem underOf_eq_map (index : Nat) (children : List (Placed SceneNode)) :
    underOf index children =
      children.map fun child => { child with node := child.node.under index } := by
  induction children with
  | nil => rfl
  | cons child rest ih =>
    obtain ⟨placement, facet, node⟩ := child
    rw [underOf, ih, List.map_cons]

end SceneNode

section

variable {α β γ δ : Type} {index : Nat}

/-- The image of a result, with a position in front of the path of a
    failure. -/
def moved (index : Nat) (f : α → β) : Except Failure α → Except Failure β
  | .ok a => .ok (f a)
  | .error e => .error (e.under index)

theorem moved_eq_ok_iff {f : α → β} {x : Except Failure α} {b : β} :
    moved index f x = .ok b ↔ ∃ a, x = .ok a ∧ b = f a := by
  cases x with
  | error e => simp [moved]
  | ok a => simp [moved, eq_comm]

theorem moved_eq_error_iff {f : α → β} {x : Except Failure α} {e : Failure} :
    moved index f x = .error e ↔ ∃ e', x = .error e' ∧ e = e'.under index := by
  cases x with
  | error e' => simp [moved, eq_comm]
  | ok a => simp [moved]

/-- Chains are moved if their steps are. -/
theorem bind_eq_moved {f : α → β} {g : γ → δ} {x : Except Failure α} {y : Except Failure β}
    {k : α → Except Failure γ} {k' : β → Except Failure δ} (hx : y = moved index f x)
    (hk : ∀ a, k' (f a) = moved index g (k a)) : (y >>= k') = moved index g (x >>= k) := by
  rw [hx]
  cases x with
  | error e => rfl
  | ok a => exact hk a

/-- Mapping a list is moved if it is at every element. -/
theorem mapM_eq_moved {f : γ → Except Failure α} {f' : γ → Except Failure β} {g : α → β}
    {xs : List γ} (h : ∀ x ∈ xs, f' x = moved index g (f x)) :
    xs.mapM f' = moved index (List.map g) (xs.mapM f) := by
  induction xs with
  | nil => rfl
  | cons x xs ih =>
    have hrest := ih fun z hz => h z (List.mem_cons_of_mem _ hz)
    rw [List.mapM_cons, List.mapM_cons]
    refine bind_eq_moved (h x List.mem_cons_self) fun a => ?_
    exact bind_eq_moved hrest fun as => rfl

/-- A failure that is reported at a path is reported below it if the path
    is. -/
theorem relocate_under (e : Failure) (p : NodePath) (index : Nat) :
    e.relocate (p.under index) = (e.relocate p).under index := by
  cases e <;> rfl

/-- A part of a result that knows no path moves with the node. -/
theorem locatedAt_under {f : α → β} {x : Except Failure α} {y : Except Failure β}
    (p : NodePath) (h : y = x.map f) :
    locatedAt (p.under index) y = moved index f (locatedAt p x) := by
  rw [h]
  cases x with
  | error e => exact congrArg Except.error (relocate_under e p index)
  | ok a => rfl

/-- So does one with the same value wherever it stands. -/
theorem locatedAt_under_same (p : NodePath) (x : Except Failure α) :
    locatedAt (p.under index) x = moved index id (locatedAt p x) := by
  apply locatedAt_under
  cases x <;> rfl

end

/-! ### Moving a view -/

section

variable {config : Config} {index : Nat} {path : NodePath}

/-- Marks are drawn alike in all places. -/
theorem drawMark_under {kind : MarkKind} {e : ResolvedEncoding} {o : Pipeline.Outcome} :
    drawMark config (path.under index) kind e o =
      (drawMark config path kind e o).map (SceneNode.under index) := by
  unfold drawMark
  cases config.settleLayout e.layout false with
  | error failure => rfl
  | ok composition =>
    cases checkLimit .markInstances config.limits.maxMarkInstances o.table.height with
    | error failure => rfl
    | ok _ =>
      cases markGroups o e with
      | error failure => rfl
      | ok groups => rfl

/-- Children are put in their places alike. -/
theorem arrange_under (index : Nat) (path : NodePath) (e : ResolvedEncoding) (composition : Composition)
    (panels : List (Option (String × Cell) × SceneNode)) :
    arrange (path.under index) e composition
        (panels.map fun panel => (panel.1, panel.2.under index)) =
      (arrange path e composition panels).under index := by
  rw [arrange_eq_group, arrange_eq_group, SceneNode.under, SceneNode.underOf_eq_map,
    List.length_map]
  congr 1
  apply List.ext_getElem?
  intro i
  rw [getElem?_placed, List.getElem?_map, List.getElem?_map, getElem?_placed, Option.map_map,
    Option.map_map]
  rfl

/-- The panels of a facet are moved if their child is. -/
theorem panels_under {t : Table} {inherited : Channels} {child : View} {field : String}
    {cells : List Cell}
    (h : ∀ rows, evaluate config rows inherited (path.under index) child =
      moved index (SceneNode.under index) (evaluate config rows inherited path child)) :
    (cells.mapM fun cell => do
        let node ← evaluate config (t.filterEq field cell) inherited (path.under index) child
        return (some (field, cell), node)) =
      moved index (List.map fun panel => (panel.1, panel.2.under index))
        (cells.mapM fun cell => do
          let node ← evaluate config (t.filterEq field cell) inherited path child
          return (some (field, cell), node)) := by
  apply mapM_eq_moved
  intro cell _
  exact bind_eq_moved (h (t.filterEq field cell)) fun _ => rfl

/-- The members of a list are moved one by one. -/
theorem evaluateAll_under {t : Table} {inherited : Channels} {start : Nat} {children : List View}
    (h : ∀ child ∈ children, ∀ childPath : NodePath,
      evaluate config t inherited (childPath.under index) child =
        moved index (SceneNode.under index) (evaluate config t inherited childPath child)) :
    evaluateAll config t inherited (path.under index) start children =
      moved index (List.map (SceneNode.under index))
        (evaluateAll config t inherited path start children) := by
  rw [evaluateAll_eq_mapM, evaluateAll_eq_mapM]
  apply mapM_eq_moved
  intro child hmem
  exact h child.1 (List.fst_mem_of_mem_zipIdx hmem) (path.child child.2)

/-- Evaluating a view below a child is evaluating it, with the position of the
    child in front of every path. -/
theorem evaluate_under (v : View) (t : Table) (inherited : Channels) (path : NodePath) :
    evaluate config t inherited (path.under index) v =
      moved index (SceneNode.under index) (evaluate config t inherited path v) := by
  induction v generalizing t inherited path with
  | mark head kind =>
    rw [evaluate, evaluate]
    apply locatedAt_under
    cases prepare config t inherited head with
    | error failure => rfl
    | ok prepared => exact drawMark_under
  | nested head child ih =>
    rw [evaluate, evaluate]
    refine bind_eq_moved (locatedAt_under_same path _) fun prepared => ?_
    obtain ⟨o, e⟩ := prepared
    cases hdetail : head.encoding.detailField? with
    | none =>
      refine bind_eq_moved (locatedAt_under_same path _) fun composition => ?_
      refine bind_eq_moved (ih _ _ (path.child 0)) fun node => ?_
      exact congrArg Except.ok (arrange_under index path e composition [(none, node)])
    | some field =>
      refine bind_eq_moved (locatedAt_under_same path _) fun planned => ?_
      obtain ⟨composition, cells⟩ := planned
      refine bind_eq_moved (panels_under fun rows => ih rows _ (path.child 0)) fun panels => ?_
      exact congrArg Except.ok (arrange_under index path e composition panels)
  | concat head children ih =>
    rw [evaluate, evaluate]
    refine bind_eq_moved (locatedAt_under_same path _) fun prepared => ?_
    obtain ⟨o, e⟩ := prepared
    refine bind_eq_moved (locatedAt_under_same path _) fun composition => ?_
    refine bind_eq_moved (evaluateAll_under fun child hmem => ih child hmem _ _) fun nodes => ?_
    have harrange := arrange_under index path e composition (nodes.map fun node => (none, node))
    rw [List.map_map] at harrange
    rw [id_eq, List.map_map]
    exact congrArg Except.ok harrange

/-- Nodes are checked alike in all places. -/
theorem checkAt_head_under (head : ViewHead) :
    head.checkAt (path.under index) = moved index id (head.checkAt path) := by
  unfold ViewHead.checkAt
  cases head.fault? with
  | none => rfl
  | some fault => rfl

theorem checkAllAt_under {start : Nat} {views : List View}
    (h : ∀ v ∈ views, ∀ p : NodePath, v.checkAt (p.under index) = moved index id (v.checkAt p)) :
    View.checkAllAt (path.under index) start views =
      moved index id (View.checkAllAt path start views) := by
  induction views generalizing start with
  | nil => rfl
  | cons v views ih =>
    rw [View.checkAllAt, View.checkAllAt]
    refine bind_eq_moved (h v List.mem_cons_self (path.child start)) fun _ => ?_
    exact ih fun w hw => h w (List.mem_cons_of_mem _ hw)

/-- Checking a view below a child is checking it, with the position of the
    child in front of the path of a failure. -/
theorem checkAt_under (v : View) (path : NodePath) :
    v.checkAt (path.under index) = moved index id (v.checkAt path) := by
  induction v generalizing path with
  | mark head kind => exact checkAt_head_under head
  | nested head child ih =>
    rw [View.checkAt, View.checkAt]
    exact bind_eq_moved (checkAt_head_under head) fun _ => ih (path.child 0)
  | concat head children ih =>
    rw [View.checkAt, View.checkAt]
    refine bind_eq_moved (checkAt_head_under head) fun _ => ?_
    by_cases hempty : children.isEmpty = true
    · simp only [hempty, if_true]
      rfl
    · simp only [hempty, Bool.false_eq_true, if_false]
      exact checkAllAt_under fun child hmem p => ih child hmem p

end

/-! ### Plain nodes -/

/-- Nodes in one layer below a root that binds nothing, each with its position
    in front of all of its paths. -/
def SceneNode.layered (roots : List SceneNode) : SceneNode :=
  .group ⟨.root, ⟨.empty, .cartesian, none⟩, Composition.layer.grid roots.length⟩
    (roots.zipIdx.map fun root => ⟨Composition.layer.place root.2, none, root.1.under root.2⟩)

section

variable {config : Config} {t : Table}

theorem arrange_eq_layered (roots : List SceneNode) :
    arrange .root ⟨.empty, .cartesian, none⟩ .layer
        ((roots.zipIdx.map fun root => root.1.under root.2).map fun node => (none, node)) =
      .layered roots := by
  rw [arrange_eq_group, SceneNode.layered, List.map_map, List.length_map, List.length_zipIdx]
  congr 1
  apply List.ext_getElem?
  intro i
  rw [getElem?_placed, List.getElem?_map, List.getElem?_map, List.getElem?_zipIdx]
  cases roots[i]? with
  | none => rfl
  | some root => simp

/-- A root without steps and channels leaves the table as it is. -/
theorem prepare_root (config : Config) (t : Table) :
    prepare config t .empty {} = .ok (⟨t, [], []⟩, ⟨.empty, .cartesian, none⟩) := rfl

/-- A root around a single view. -/
theorem evaluate_nested_root (v : View) :
    evaluate config t .empty .root (.nested {} v) =
      moved 0 (fun root => .layered [root]) (evaluate config t .empty .root v) := by
  have hchild : evaluate config t (inherit .empty {}) (.child .root 0) v =
      moved 0 (SceneNode.under 0) (evaluate config t .empty .root v) := by
    rw [inherit_unbound]
    exact evaluate_under v t .empty .root
  rw [evaluate, prepare_root]
  show (do
    let node ← evaluate config t (inherit .empty {}) (.child .root 0) v
    return arrange .root ⟨.empty, .cartesian, none⟩ .layer [(none, node)]) = _
  rw [hchild]
  cases evaluate config t .empty .root v with
  | error e => rfl
  | ok root => exact congrArg Except.ok (arrange_eq_layered [root])

theorem compile_nested_eq_moved (v : View) :
    compile config (.nested {} v) t =
      moved 0 (fun scene => ⟨.layered [scene.root]⟩) (compile config v t) := by
  have hvalidate : (View.nested {} v).validate = moved 0 id v.validate := by
    rw [View.validate, View.checkAt]
    exact checkAt_under v .root
  unfold compile
  refine bind_eq_moved hvalidate fun _ => ?_
  exact bind_eq_moved (evaluate_nested_root v) fun _ => rfl

/-- The members of a list below the root give what they give at the root, each
    with its position in front of all paths. -/
theorem evaluateAll_root_eq_ok_iff {start : Nat} {views : List View} {nodes : List SceneNode} :
    evaluateAll config t .empty .root start views = .ok nodes ↔
      ∃ roots, List.Forall₂ (fun v root => evaluate config t .empty .root v = .ok root) views roots ∧
        nodes = (roots.zipIdx start).map fun root => root.1.under root.2 := by
  induction views generalizing start nodes with
  | nil =>
    rw [evaluateAll, Except.ok.injEq]
    simp [eq_comm]
  | cons v views ih =>
    have hfirst : evaluate config t .empty (.child .root start) v =
        moved start (SceneNode.under start) (evaluate config t .empty .root v) :=
      evaluate_under v t .empty .root
    rw [evaluateAll, bind_eq_ok_iff]
    constructor
    · intro h
      obtain ⟨node, hnode, h⟩ := h
      rw [hfirst, moved_eq_ok_iff] at hnode
      obtain ⟨root, hroot, hunder⟩ := hnode
      obtain ⟨rest, hrest, h⟩ := bind_eq_ok_iff.1 h
      obtain ⟨roots, hroots, hrest⟩ := ih.1 hrest
      refine ⟨root :: roots, .cons hroot hroots, ?_⟩
      rw [← Except.ok.inj h, hunder, hrest, List.zipIdx_cons, List.map_cons]
    · intro h
      obtain ⟨roots, hroots, hnodes⟩ := h
      cases hroots with
      | @cons _ root _ roots hroot hroots =>
        refine ⟨root.under start, ?_, bind_eq_ok_iff.2 ⟨_, ih.2 ⟨roots, hroots, rfl⟩, ?_⟩⟩
        · rw [hfirst, hroot]
          rfl
        · rw [hnodes, List.zipIdx_cons, List.map_cons]
          rfl

/-- A root around a list of views. -/
theorem evaluate_concat_root_eq_ok_iff {views : List View} {node : SceneNode} :
    evaluate config t .empty .root (.concat {} views) = .ok node ↔
      Allows config.limits.maxLayoutChildren views.length ∧
        ∃ roots, List.Forall₂ (fun v root => evaluate config t .empty .root v = .ok root) views roots ∧
          node = .layered roots := by
  have hplan : ∀ composition, concatPlan config none views.length = .ok composition ↔
      composition = .layer ∧ Allows config.limits.maxLayoutChildren views.length := by
    intro composition
    rw [concatPlan_eq_ok_iff, checkLimit_eq_ok_iff]
    show Except.ok .layer = Except.ok composition ∧ _ ↔ _
    rw [Except.ok.injEq, eq_comm]
  rw [evaluate, prepare_root]
  show (do
    let composition ← locatedAt .root (concatPlan config none views.length)
    let nodes ← evaluateAll config t (inherit .empty {}) .root 0 views
    return arrange .root ⟨.empty, .cartesian, none⟩ composition
      (nodes.map fun node => (none, node))) = Except.ok node ↔ _
  simp only [inherit_unbound, bind_eq_ok_iff, locatedAt_eq_ok_iff, hplan, evaluateAll_root_eq_ok_iff]
  constructor
  · intro h
    obtain ⟨composition, ⟨hcomposition, hallows⟩, nodes, ⟨roots, hroots, hnodes⟩, hnode⟩ := h
    rw [hcomposition, hnodes, arrange_eq_layered] at hnode
    exact ⟨hallows, roots, hroots, (Except.ok.inj hnode).symm⟩
  · intro h
    obtain ⟨hallows, roots, hroots, hnode⟩ := h
    refine ⟨.layer, ⟨rfl, hallows⟩, _, ⟨roots, hroots, rfl⟩, ?_⟩
    rw [arrange_eq_layered, hnode]
    rfl

theorem checkAllAt_root_eq_ok_iff {start : Nat} {views : List View} :
    View.checkAllAt .root start views = .ok () ↔ ∀ v ∈ views, v.validate = .ok () := by
  induction views generalizing start with
  | nil => simp [View.checkAllAt]
  | cons v views ih =>
    have hfirst : v.checkAt (.child .root start) = moved start id v.validate :=
      checkAt_under v .root
    rw [View.checkAllAt, bind_eq_ok_iff, hfirst, List.forall_mem_cons]
    constructor
    · intro ⟨_, hv, hviews⟩
      obtain ⟨_, hvalid, -⟩ := moved_eq_ok_iff.1 hv
      exact ⟨hvalid, ih.1 hviews⟩
    · intro ⟨hvalid, hviews⟩
      exact ⟨(), moved_eq_ok_iff.2 ⟨(), hvalid, rfl⟩, ih.2 hviews⟩

/-- A list of views is valid if there are any and all of them are. -/
theorem validate_concat_eq_ok_iff {views : List View} :
    (View.concat {} views).validate = .ok () ↔
      views ≠ [] ∧ ∀ v ∈ views, v.validate = .ok () := by
  rw [View.validate, View.checkAt, bind_eq_ok_iff]
  cases views with
  | nil =>
    constructor
    · intro ⟨_, _, h⟩
      cases h
    · intro ⟨h, _⟩
      exact absurd rfl h
  | cons v views =>
    have hall : View.checkAllAt .root 0 (v :: views) = .ok () ↔
        ∀ w ∈ v :: views, w.validate = .ok () := checkAllAt_root_eq_ok_iff
    constructor
    · intro ⟨_, _, h⟩
      exact ⟨List.cons_ne_nil v views, hall.1 h⟩
    · intro ⟨_, h⟩
      exact ⟨(), rfl, hall.2 h⟩

/-- Compiling a list of views takes scenes of all of them. -/
theorem compile_concat_eq_ok_iff {views : List View} {scene : Scene} :
    compile config (.concat {} views) t = .ok scene ↔
      views ≠ [] ∧ Allows config.limits.maxLayoutChildren views.length ∧
        ∃ scenes, List.Forall₂ (fun v scene => compile config v t = .ok scene) views scenes ∧
          scene.root = .layered (scenes.map Scene.root) := by
  simp only [compile_eq_ok_iff, validate_concat_eq_ok_iff, evaluate_concat_root_eq_ok_iff,
    List.forall₂_and_left]
  constructor
  · intro ⟨⟨hne, hvalid⟩, hallows, roots, hroots, hscene⟩
    have hscenes : List.Forall₂ (fun v (scene : Scene) =>
        evaluate config t .empty .root v = .ok scene.root) views (roots.map Scene.mk) :=
      List.forall₂_map_right_iff.2 hroots
    refine ⟨hne, hallows, roots.map Scene.mk, ⟨hvalid, hscenes⟩, ?_⟩
    rw [hscene, List.map_map]
    exact congrArg SceneNode.layered (List.map_id roots).symm
  · intro ⟨hne, hallows, scenes, ⟨hvalid, hscenes⟩, hscene⟩
    exact ⟨⟨hne, hvalid⟩, hallows, _, List.forall₂_map_right_iff.2 hscenes, hscene⟩

/-- The batch gives scenes only if each of its views does. -/
theorem compileBatch_eq_map_ok_iff {views : List View} {scenes : List Scene} :
    compileBatch config views t = scenes.map .ok ↔
      List.Forall₂ (fun v scene => compile config v t = .ok scene) views scenes := by
  rw [compileBatch, ← List.forall₂_eq_eq_eq, List.forall₂_map_left_iff, List.forall₂_map_right_iff]

/-- A node that derives nothing and binds nothing collects what its views give
    alone, in one layer. Around a single view it gives what the view gives, with
    position `0` in front of all paths, and fails as the view does. Around a
    list it gives a scene exactly if there is a view, there are no more than
    allowed, and all of them give one. -/
theorem compile_collects (config : Config) (t : Table) :
    (∀ v scene, compile config (.nested {} v) t = .ok scene ↔
      ∃ inner, compile config v t = .ok inner ∧ scene.root = .layered [inner.root]) ∧
    (∀ v e, compile config (.nested {} v) t = .error e ↔
      ∃ inner, compile config v t = .error inner ∧ e = inner.under 0) ∧
    ∀ views scene, compile config (.concat {} views) t = .ok scene ↔
      views ≠ [] ∧ Allows config.limits.maxLayoutChildren views.length ∧
        ∃ scenes : List Scene, compileBatch config views t = scenes.map .ok ∧
          scene.root = .layered (scenes.map Scene.root) := by
  refine ⟨fun v scene => ?_, fun v e => ?_, fun views scene => ?_⟩
  · rw [compile_nested_eq_moved, moved_eq_ok_iff]
    constructor
    · intro ⟨inner, hinner, hscene⟩
      exact ⟨inner, hinner, congrArg Scene.root hscene⟩
    · intro ⟨inner, hinner, hroot⟩
      exact ⟨inner, hinner, congrArg Scene.mk hroot⟩
  · rw [compile_nested_eq_moved, moved_eq_error_iff]
  · simp only [compile_concat_eq_ok_iff, compileBatch_eq_map_ok_iff]

end

/-- A bar as long as a field that the visits do not have fails one level down.
    Panels and points of the visits share one layer. -/
theorem compile_collects_of_visits :
    compile {} (.nested {} (.mark { encoding := { x := some (.field "length" none) } } .bar))
        siteVisits = .error (.unknownField ⟨[0]⟩ "length") ∧
      ∃ panels points, compile {} sitePanels siteVisits = .ok panels ∧
        compile {} (.mark {} .point) siteVisits = .ok points ∧
        compile {} (.concat {} [sitePanels, .mark {} .point]) siteVisits =
          .ok ⟨.layered [panels.root, points.root]⟩ := by
  obtain ⟨-, hnested, hconcat⟩ := compile_collects {} siteVisits
  obtain ⟨panels, hpanels⟩ : ∃ panels, compile {} sitePanels siteVisits = .ok panels := ⟨_, rfl⟩
  obtain ⟨points, hpoints⟩ : ∃ points, compile {} (.mark {} .point) siteVisits = .ok points :=
    ⟨_, rfl⟩
  have hbatch : compileBatch {} [sitePanels, .mark {} .point] siteVisits =
      [panels, points].map .ok := by
    rw [compileBatch, List.map_cons, List.map_singleton, hpanels, hpoints]
    rfl
  have hallows : Allows none 2 := fun _ hmost => nomatch hmost
  refine ⟨(hnested _ _).2 ⟨.unknownField .root "length", rfl, rfl⟩, panels, points, hpanels,
    hpoints, ?_⟩
  exact (hconcat _ _).2 ⟨List.cons_ne_nil _ _, hallows, [panels, points], hbatch, rfl⟩

end PlotGrammar
