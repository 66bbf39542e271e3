import PlotGrammar.Proofs.Evaluation.Structure

/-! # Limits only filter

  The limits of a configuration decide whether there is a scene, and never
  which. A view compiles within limits exactly if it compiles without any and
  its scene keeps them (`compile_eq_ok_iff_unlimited`).

  - `Scene.WithinLimits` says what a scene must keep: a leaf the limit on
    instances, a facet those on panels and on children, and a list of views
    the one on children. A single nested view is under no limit.
    `WithinLimits` says the same of a part of a scene, for the induction.
  - `Filtered` compares a computation with the same one without limits. Both
    fail, or both give the same value, which keeps the limits, or the value
    breaks one and the first computation fails for a limit.
  - `filtered_evaluate` shows that evaluations compare like this, by induction
    over the view.
-/

namespace PlotGrammar

/-- The configuration with no limit set. -/
def Config.unlimited (config : Config) : Config := { config with limits := {} }

/-! ### Scenes within limits -/

/-- Whether a node is a list of views. -/
def View.isConcat : View → Bool
  | .concat _ _ => true
  | _ => false

/-- A node of a scene that stands for a node of the view keeps its limits. -/
def KeepsLimits (limits : Limits) (w : View) : SceneNode → Prop
  | .marks leaf => Allows limits.maxMarkInstances leaf.table.height
  | .group _ children =>
    (w.isFacet = true → Allows limits.maxFacets children.length ∧
      Allows limits.maxLayoutChildren children.length) ∧
    (w.isConcat = true → Allows limits.maxLayoutChildren children.length)

/-- All nodes of a part of a scene keep their limits. Each stands for the node
    to which its path leads, where `v` is the view at `path`. -/
def WithinLimits (limits : Limits) (v : View) (path : NodePath) (node : SceneNode) : Prop :=
  ∀ n, SceneNode.Holds n node → ∀ rest w, n.path.indices = path.indices ++ rest →
    v.at? rest = some w → KeepsLimits limits w n

/-- A scene of a view keeps the limits. -/
structure Scene.WithinLimits (limits : Limits) (v : View) (scene : Scene) : Prop where
  /-- Every leaf has at most as many rows as the limit on instances allows. -/
  leaves : ∀ leaf ∈ scene.leaves, Allows limits.maxMarkInstances leaf.table.height
  /-- Every facet has at most as many panels as its two limits allow. -/
  facets : ∀ head children w, SceneNode.Holds (.group head children) scene.root →
    v.at? head.path.indices = some w → w.isFacet = true →
    Allows limits.maxFacets children.length ∧ Allows limits.maxLayoutChildren children.length
  /-- Every list of views has at most as many children as its limit allows. -/
  concats : ∀ head children w, SceneNode.Holds (.group head children) scene.root →
    v.at? head.path.indices = some w → w.isConcat = true →
    Allows limits.maxLayoutChildren children.length

section

variable {limits : Limits} {v child : View} {path : NodePath} {index : Nat}

/-- A leaf has to keep the limit on instances. -/
theorem withinLimits_marks_iff {head : ViewHead} {kind : MarkKind} {leaf : MarkLeaf}
    (hpath : leaf.path = path) :
    WithinLimits limits (.mark head kind) path (.marks leaf) ↔
      Allows limits.maxMarkInstances leaf.table.height := by
  constructor
  · intro h
    refine h (.marks leaf) .self [] (.mark head kind) ?_ rfl
    rw [List.append_nil, SceneNode.path, hpath]
  · intro h n hn rest w _ _
    cases hn
    exact h

/-- Children in their places have to keep their limits, and so has their node. -/
theorem withinLimits_arrange_iff {e : ResolvedEncoding} {composition : Composition}
    {panels : List (Option (String × Cell) × SceneNode)} :
    WithinLimits limits v path (arrange path e composition panels) ↔
      KeepsLimits limits v (arrange path e composition panels) ∧
        ∀ panel ∈ panels, WithinLimits limits v path panel.2 := by
  have hnodes : ∀ node, (∃ child ∈ placed composition panels, child.node = node) ↔
      ∃ panel ∈ panels, panel.2 = node := by
    intro node
    conv => rhs; rw [← map_content_placed composition panels]
    simp
  constructor
  · intro h
    constructor
    · refine h _ .self [] v ?_ rfl
      rw [List.append_nil]
      rfl
    · intro panel hpanel n hn
      obtain ⟨child, hchild, hnode⟩ := (hnodes panel.2).2 ⟨panel, hpanel, rfl⟩
      rw [← hnode] at hn
      exact h n (.inside hchild hn)
  · intro ⟨hown, hpanels⟩ n hn rest w hpath hat
    cases hn with
    | self =>
      -- The path of the node itself does not go on.
      have hrest : rest = [] := List.self_eq_append_right.1 hpath
      rw [hrest, View.at?, Option.some.injEq] at hat
      rw [← hat]
      exact hown
    | inside hchild hn =>
      obtain ⟨panel, hpanel, hnode⟩ := (hnodes _).1 ⟨_, hchild, rfl⟩
      rw [← hnode] at hn
      exact hpanels panel hpanel n hn rest w hpath hat

/-- A single nested view is under no limit itself. -/
theorem withinLimits_nested_iff {head : ViewHead} {e : ResolvedEncoding} {composition : Composition}
    {panels : List (Option (String × Cell) × SceneNode)}
    (hdetail : head.encoding.detailField? = none) :
    WithinLimits limits (.nested head child) path (arrange path e composition panels) ↔
      ∀ panel ∈ panels, WithinLimits limits (.nested head child) path panel.2 := by
  rw [withinLimits_arrange_iff]
  simp [arrange_eq_group, KeepsLimits, View.isFacet, View.isConcat, hdetail]

/-- A facet is under the limits on panels and on children. -/
theorem withinLimits_facet_iff {head : ViewHead} {e : ResolvedEncoding} {composition : Composition}
    {panels : List (Option (String × Cell) × SceneNode)} {field : String}
    (hdetail : head.encoding.detailField? = some field) :
    WithinLimits limits (.nested head child) path (arrange path e composition panels) ↔
      (Allows limits.maxFacets panels.length ∧ Allows limits.maxLayoutChildren panels.length) ∧
        ∀ panel ∈ panels, WithinLimits limits (.nested head child) path panel.2 := by
  rw [withinLimits_arrange_iff]
  simp [arrange_eq_group, KeepsLimits, View.isFacet, View.isConcat, hdetail]

/-- A list of views is under the limit on children. -/
theorem withinLimits_concat_iff {head : ViewHead} {views : List View} {e : ResolvedEncoding}
    {composition : Composition} {panels : List (Option (String × Cell) × SceneNode)} :
    WithinLimits limits (.concat head views) path (arrange path e composition panels) ↔
      Allows limits.maxLayoutChildren panels.length ∧
        ∀ panel ∈ panels, WithinLimits limits (.concat head views) path panel.2 := by
  rw [withinLimits_arrange_iff]
  simp [arrange_eq_group, KeepsLimits, View.isFacet, View.isConcat]

/-- A part of a scene below a child keeps its limits as a part below the node. -/
theorem withinLimits_child_iff {node : SceneNode} (hchild : v.children[index]? = some child)
    (hnode : ∀ n, SceneNode.Holds n node → (path.child index).indices <+: n.path.indices) :
    WithinLimits limits child (path.child index) node ↔ WithinLimits limits v path node := by
  have hat : ∀ rest, v.at? (index :: rest) = child.at? rest := by
    intro rest
    rw [View.at?, hchild, Option.bind_some]
  constructor
  · intro h n hn rest w hpath hw
    -- The path of the node goes on with the position of the child.
    obtain ⟨below, hbelow⟩ := hnode n hn
    rw [← hbelow, NodePath.child, List.append_assoc, List.append_cancel_left_eq] at hpath
    rw [← hpath, List.singleton_append, hat] at hw
    exact h n hn below w hbelow.symm hw
  · intro h n hn rest w hpath hw
    refine h n hn (index :: rest) w ?_ ?_
    · rw [hpath, NodePath.child, List.append_assoc, List.singleton_append]
    · rw [hat]
      exact hw

end

/-- A scene keeps the limits if all of its nodes do. -/
theorem Scene.withinLimits_iff {config : Config} {v : View} {t : Table} {scene : Scene}
    {limits : Limits} (h : compile config v t = .ok scene) :
    scene.WithinLimits limits v ↔ PlotGrammar.WithinLimits limits v .root scene.root := by
  constructor
  · intro hscene n hn rest w hpath hat
    rw [NodePath.root, List.nil_append] at hpath
    rw [← hpath] at hat
    cases n with
    | marks leaf => exact hscene.leaves leaf (SceneNode.mem_leaves_of_holds hn)
    | group head children =>
      exact ⟨hscene.facets head children w hn hat, hscene.concats head children w hn hat⟩
  · intro hroot
    have hkeeps : ∀ n, SceneNode.Holds n scene.root → ∀ w, v.at? n.path.indices = some w →
        KeepsLimits limits w n :=
      fun n hn w hat => hroot n hn n.path.indices w rfl hat
    refine ⟨fun leaf hleaf => ?_, fun head children w hn hat => (hkeeps _ hn w hat).1,
      fun head children w hn hat => (hkeeps _ hn w hat).2⟩
    -- The path of a leaf leads to a node of the view.
    obtain ⟨c, hreached, hrun⟩ := exists_reached_of_mem_leaves h hleaf
    obtain ⟨-, -, hat⟩ := hreached.exists_above
    have hpath : leaf.path = c.path := path_of_evaluate hrun
    rw [← hpath] at hat
    exact hkeeps (.marks leaf) (SceneNode.holds_of_mem_leaves hleaf) c.view hat

/-! ### Filtered results -/

variable {α β γ : Type}

/-- The first result is that of a computation within limits, and the second
    that of the same computation without; `Q` holds of the values that keep
    the limits. -/
inductive Filtered (Q : α → Prop) : Except Failure α → Except Failure α → Prop where
  /-- Both fail; only a limit can make a difference. -/
  | error {e e' : Failure} (h : e = e' ∨ e.kind = .budgetExceeded) :
      Filtered Q (.error e) (.error e')
  /-- The value keeps the limits. -/
  | kept {a : α} (h : Q a) : Filtered Q (.ok a) (.ok a)
  /-- The value breaks a limit. -/
  | refused {e : Failure} {a : α} (h : ¬ Q a) (he : e.kind = .budgetExceeded) :
      Filtered Q (.error e) (.ok a)

namespace Filtered

variable {Q Q' : α → Prop} {S : β → Prop} {x y : Except Failure α} {f g : α → Except Failure β}

/-- A computation without limits is filtered by nothing. -/
theorem refl (h : ∀ a, x = .ok a → Q a) : Filtered Q x x := by
  cases x with
  | error e => exact .error (.inl rfl)
  | ok a => exact .kept (h a rfl)

/-- What the values must keep matters for the values that there are. -/
theorem congr (h : Filtered Q x y) (hQ : ∀ a, y = .ok a → (Q a ↔ Q' a)) : Filtered Q' x y := by
  cases h with
  | error h => exact .error h
  | kept h => exact .kept ((hQ _ rfl).1 h)
  | refused h he => exact .refused (fun hQ' => h ((hQ _ rfl).2 hQ')) he

/-- Chains are filtered if their steps are, and if the value of the chain can
    only keep its limits where the value of the first step does. -/
theorem bind (h : Filtered Q x y) (hfg : ∀ a, y = .ok a → Q a → Filtered S (f a) (g a))
    (hfirst : ∀ a b, y = .ok a → g a = .ok b → S b → Q a) :
    Filtered S (x >>= f) (y >>= g) := by
  cases h with
  | error h => exact .error h
  | kept h => exact hfg _ rfl h
  | @refused e a h he =>
    show Filtered S (.error e) (g a)
    cases hg : g a with
    | error e' => exact .error (.inr he)
    | ok b => exact .refused (fun hS => h (hfirst a b rfl hg hS)) he

/-- Chains with the same first step are filtered if their second steps are. -/
theorem bind_same (hfg : ∀ a, x = .ok a → Filtered S (f a) (g a)) :
    Filtered S (x >>= f) (x >>= g) := by
  cases x with
  | error e => exact .error (.inl rfl)
  | ok a => exact hfg a rfl

/-- A step that cannot fail makes another value of each. -/
theorem map {k : α → β} (h : Filtered Q x y) (hQ : ∀ a, y = .ok a → (Q a ↔ S (k a))) :
    Filtered S (x >>= fun a => .ok (k a)) (y >>= fun a => .ok (k a)) := by
  refine h.bind (fun a hy ha => .kept ((hQ a hy).1 ha)) ?_
  intro a b hy hb hS
  rw [← Except.ok.inj hb] at hS
  exact (hQ a hy).2 hS

/-- Moving a failure to a node keeps its kind. -/
theorem locatedAt (h : Filtered Q x y) (path : NodePath) :
    Filtered Q (PlotGrammar.locatedAt path x) (PlotGrammar.locatedAt path y) := by
  have hkind : ∀ e : Failure, (e.relocate path).kind = e.kind := by
    intro e
    cases e <;> rfl
  cases h with
  | error h =>
    refine .error (h.imp (fun heq => ?_) fun he => ?_)
    · rw [heq]
    · rw [hkind, he]
  | kept h => exact .kept h
  | refused h he => exact .refused h ((hkind _).trans he)

/-- Mapping a list is filtered if it is at every element. -/
theorem mapM {f g : γ → Except Failure α} {xs : List γ} (h : ∀ x ∈ xs, Filtered Q (f x) (g x)) :
    Filtered (fun ys => ∀ y ∈ ys, Q y) (xs.mapM f) (xs.mapM g) := by
  induction xs with
  | nil =>
    apply Filtered.kept
    intro y hy
    cases hy
  | cons x xs ih =>
    rw [List.mapM_cons, List.mapM_cons]
    have hrest := ih fun z hz => h z (List.mem_cons_of_mem _ hz)
    refine (h x List.mem_cons_self).bind (fun y _ hy => ?_) ?_
    · refine hrest.map fun ys _ => ?_
      rw [List.forall_mem_cons]
      exact (and_iff_right hy).symm
    · intro y ys _ hys hall
      obtain ⟨rest, -, heq⟩ := bind_eq_ok_iff.1 hys
      rw [← Except.ok.inj heq] at hall
      exact hall y List.mem_cons_self

/-- There is a value exactly if there is one without limits that keeps them. -/
theorem eq_ok_iff (h : Filtered Q x y) (a : α) : x = .ok a ↔ y = .ok a ∧ Q a := by
  cases h with
  | error h => simp
  | kept h =>
    rw [Except.ok.injEq, iff_self_and]
    intro heq
    rw [← heq]
    exact h
  | refused h he =>
    rw [Except.ok.injEq]
    constructor
    · intro hx
      cases hx
    · intro ⟨heq, hQ⟩
      rw [← heq] at hQ
      exact absurd hQ h

/-- A value that breaks a limit is refused. -/
theorem exists_error_of_not (h : Filtered Q x y) {a : α} (hy : y = .ok a) (hQ : ¬ Q a) :
    ∃ e, x = .error e ∧ e.kind = .budgetExceeded := by
  cases h with
  | error h => cases hy
  | kept h =>
    cases hy
    exact absurd h hQ
  | refused h he => exact ⟨_, rfl, he⟩

/-- A failure without limits is one within them, or there is one before it. -/
theorem exists_error (h : Filtered Q x y) {e : Failure} (hy : y = .error e) :
    ∃ e', x = .error e' ∧ (e' = e ∨ e'.kind = .budgetExceeded) := by
  cases h with
  | error h =>
    cases hy
    exact ⟨_, rfl, h⟩
  | kept h => cases hy
  | refused h he => cases hy

end Filtered

/-! ### Nodes -/

section

variable {config : Config}

/-- A check filters by its limit. -/
theorem filtered_checkLimit {limit : Limit} {allowed : Option Nat} {actual : Nat} :
    Filtered (fun _ => Allows allowed actual) (checkLimit limit allowed actual) (.ok ()) := by
  cases hcheck : checkLimit limit allowed actual with
  | ok _ => exact .kept (checkLimit_eq_ok_iff.1 hcheck)
  | error e =>
    obtain ⟨most, hmost, hactual, rfl⟩ := checkLimit_eq_error_iff.1 hcheck
    refine .refused (fun hallows => ?_) rfl
    have hle := hallows most hmost
    omega

theorem filtered_facetPlan {t : Table} {layout : Option Layout} {field : String} :
    Filtered (fun plan => Allows config.limits.maxFacets plan.2.length ∧
      Allows config.limits.maxLayoutChildren plan.2.length)
      (facetPlan config t layout field) (facetPlan config.unlimited t layout field) := by
  unfold facetPlan
  refine .bind_same fun composition _ => ?_
  cases t.distinct? field with
  | none => exact .error (.inl rfl)
  | some cells =>
    refine filtered_checkLimit.bind (fun _ _ hfacets => ?_) ?_
    · refine filtered_checkLimit.map fun _ _ => ?_
      exact (and_iff_right hfacets).symm
    · intro _ plan _ hplan hallows
      rw [← Except.ok.inj hplan] at hallows
      exact hallows.1

theorem filtered_concatPlan {layout : Option Layout} {count : Nat} :
    Filtered (fun _ => Allows config.limits.maxLayoutChildren count)
      (concatPlan config layout count) (concatPlan config.unlimited layout count) := by
  unfold concatPlan
  refine .bind_same fun composition _ => ?_
  exact filtered_checkLimit.map fun _ _ => Iff.rfl

theorem filtered_drawMark {head : ViewHead} {kind : MarkKind} {path : NodePath}
    {e : ResolvedEncoding} {o : Pipeline.Outcome} :
    Filtered (WithinLimits config.limits (.mark head kind) path)
      (drawMark config path kind e o) (drawMark config.unlimited path kind e o) := by
  unfold drawMark
  refine .bind_same fun composition _ => ?_
  refine filtered_checkLimit.bind (fun _ _ hrows => ?_) ?_
  · refine .refl fun node hnode => ?_
    obtain ⟨groups, -, heq⟩ := bind_eq_ok_iff.1 hnode
    rw [← Except.ok.inj heq]
    exact (withinLimits_marks_iff rfl).2 hrows
  · intro _ node _ hnode hwithin
    obtain ⟨groups, -, heq⟩ := bind_eq_ok_iff.1 hnode
    rw [← Except.ok.inj heq] at hwithin
    exact (withinLimits_marks_iff rfl).1 hwithin

/-! ### Views -/

/-- Below a child the limits are those of the child. -/
theorem filtered_child {v child : View} {path : NodePath} {index : Nat} {t : Table}
    {inherited : Channels} (hchild : v.children[index]? = some child)
    (h : Filtered (WithinLimits config.limits child (path.child index))
      (evaluate config t inherited (path.child index) child)
      (evaluate config.unlimited t inherited (path.child index) child)) :
    Filtered (WithinLimits config.limits v path)
      (evaluate config t inherited (path.child index) child)
      (evaluate config.unlimited t inherited (path.child index) child) := by
  refine h.congr fun node hnode => withinLimits_child_iff hchild fun n hn => ?_
  have hrun : Call.run config.unlimited ⟨t, inherited, path.child index, child⟩ = .ok node := hnode
  exact Call.prefix_path_of_holds hrun hn

/-- The panels of a facet are filtered one by one. -/
theorem filtered_panels {Q : SceneNode → Prop} {inherited : Channels} {path : NodePath}
    {child : View} (t : Table) (field : String) (cells : List Cell)
    (h : ∀ rows, Filtered Q (evaluate config rows inherited path child)
      (evaluate config.unlimited rows inherited path child)) :
    Filtered (fun panels => ∀ panel ∈ panels, Q panel.2)
      (cells.mapM fun cell => do
        let node ← evaluate config (t.filterEq field cell) inherited path child
        return (some (field, cell), node))
      (cells.mapM fun cell => do
        let node ← evaluate config.unlimited (t.filterEq field cell) inherited path child
        return (some (field, cell), node)) := by
  apply Filtered.mapM
  intro cell _
  exact (h (t.filterEq field cell)).map fun _ _ => Iff.rfl

/-- The members of a list are filtered one by one. -/
theorem filtered_evaluateAll {Q : SceneNode → Prop} {t : Table} {inherited : Channels}
    {path : NodePath} {children : List View}
    (h : ∀ (index : Nat) child, children[index]? = some child →
      Filtered Q (evaluate config t inherited (path.child index) child)
        (evaluate config.unlimited t inherited (path.child index) child)) :
    Filtered (fun nodes => ∀ node ∈ nodes, Q node)
      (evaluateAll config t inherited path 0 children)
      (evaluateAll config.unlimited t inherited path 0 children) := by
  rw [evaluateAll_eq_mapM, evaluateAll_eq_mapM]
  apply Filtered.mapM
  intro child hmem
  exact h child.2 child.1 (List.mk_mem_zipIdx_iff_getElem?.1 hmem)

/-- A list gives as many nodes as it has members. -/
theorem length_of_evaluateAll {t : Table} {inherited : Channels} {path : NodePath}
    {children : List View} {nodes : List SceneNode}
    (h : evaluateAll config t inherited path 0 children = .ok nodes) :
    nodes.length = children.length := by
  rw [evaluateAll_eq_mapM, mapM_eq_ok_iff] at h
  rw [← h.length_eq, List.length_zipIdx]

/-- Evaluating a view within limits gives what it gives without, filtered by
    the limits. -/
theorem filtered_evaluate (v : View) (t : Table) (inherited : Channels) (path : NodePath) :
    Filtered (WithinLimits config.limits v path) (evaluate config t inherited path v)
      (evaluate config.unlimited t inherited path v) := by
  induction v generalizing t inherited path with
  | mark head kind =>
    rw [evaluate, evaluate]
    refine Filtered.locatedAt (.bind_same fun _ _ => ?_) path
    exact filtered_drawMark
  | nested head child ih =>
    rw [evaluate, evaluate]
    refine .bind_same fun prepared _ => ?_
    obtain ⟨o, e⟩ := prepared
    have hbelow : ∀ rows, Filtered (WithinLimits config.limits (.nested head child) path)
        (evaluate config rows (inherit inherited head.encoding) (path.child 0) child)
        (evaluate config.unlimited rows (inherit inherited head.encoding) (path.child 0) child) :=
      fun rows => filtered_child rfl (ih rows _ _)
    cases hdetail : head.encoding.detailField? with
    | none =>
      refine .bind_same fun composition _ => ?_
      refine (hbelow o.table).map fun below _ => ?_
      rw [withinLimits_nested_iff hdetail, List.forall_mem_singleton]
    | some field =>
      -- The plan has as many cells as there will be panels, so it keeps the limits
      -- of the facet exactly if the facet does.
      refine (filtered_facetPlan.locatedAt path).bind (fun planned _ hplan => ?_) ?_
      · obtain ⟨composition, cells⟩ := planned
        refine (filtered_panels o.table field cells hbelow).map fun panels hmapM => ?_
        rw [withinLimits_facet_iff hdetail, ← (mapM_eq_ok_iff.1 hmapM).length_eq]
        exact (and_iff_right hplan).symm
      · intro planned node _ hnode hwithin
        obtain ⟨composition, cells⟩ := planned
        obtain ⟨panels, hmapM, heq⟩ := bind_eq_ok_iff.1 hnode
        rw [← Except.ok.inj heq, withinLimits_facet_iff hdetail,
          ← (mapM_eq_ok_iff.1 hmapM).length_eq] at hwithin
        exact hwithin.1
  | concat head children ih =>
    rw [evaluate, evaluate]
    refine .bind_same fun prepared _ => ?_
    obtain ⟨o, e⟩ := prepared
    have hchildren : ∀ (index : Nat) child, children[index]? = some child →
        Filtered (WithinLimits config.limits (.concat head children) path)
          (evaluate config o.table (inherit inherited head.encoding) (path.child index) child)
          (evaluate config.unlimited o.table (inherit inherited head.encoding)
            (path.child index) child) := by
      intro index child hchild
      exact filtered_child hchild (ih child (List.mem_of_getElem? hchild) _ _ _)
    refine (filtered_concatPlan.locatedAt path).bind (fun composition _ hplan => ?_) ?_
    · refine (filtered_evaluateAll hchildren).map fun nodes hrun => ?_
      rw [withinLimits_concat_iff, List.length_map, length_of_evaluateAll hrun,
        and_iff_right hplan]
      simp
    · intro composition node _ hnode hwithin
      obtain ⟨nodes, hrun, heq⟩ := bind_eq_ok_iff.1 hnode
      rw [← Except.ok.inj heq, withinLimits_concat_iff, List.length_map,
        length_of_evaluateAll hrun] at hwithin
      exact hwithin.1

/-- Compiling within limits is filtered by them. -/
theorem filtered_compile (v : View) (t : Table) :
    Filtered (Scene.WithinLimits config.limits v) (compile config v t)
      (compile config.unlimited v t) := by
  have hroot : Filtered (fun scene => WithinLimits config.limits v .root scene.root)
      (compile config v t) (compile config.unlimited v t) := by
    unfold compile
    refine .bind_same fun _ _ => ?_
    exact (filtered_evaluate v t .empty .root).map fun _ _ => Iff.rfl
  exact hroot.congr fun scene hscene => (Scene.withinLimits_iff hscene).symm

end

/-- Limits only filter. A scene is given within limits exactly if it is given
    without and keeps them. If the scene without limits breaks one, or if there
    is none, compiling fails: the first time for a limit, and the second with
    the same failure unless it comes to a limit before. -/
theorem compile_eq_ok_iff_unlimited (config : Config) (v : View) (t : Table) :
    (∀ scene, compile config v t = .ok scene ↔
      compile config.unlimited v t = .ok scene ∧ scene.WithinLimits config.limits v) ∧
    (∀ scene, compile config.unlimited v t = .ok scene →
      ¬ scene.WithinLimits config.limits v →
      ∃ e, compile config v t = .error e ∧ e.kind = .budgetExceeded) ∧
    ∀ e, compile config.unlimited v t = .error e →
      ∃ e', compile config v t = .error e' ∧ (e' = e ∨ e'.kind = .budgetExceeded) := by
  have hfiltered : Filtered (Scene.WithinLimits config.limits v) (compile config v t)
      (compile config.unlimited v t) := filtered_compile v t
  exact ⟨hfiltered.eq_ok_iff, fun scene => hfiltered.exists_error_of_not,
    fun e => hfiltered.exists_error⟩

/-- The two panels of two sites are given where two are allowed, and refused
    where only one is. -/
theorem compile_eq_ok_iff_unlimited_of_visits :
    ∃ scene, compile {} sitePanels siteVisits = .ok scene ∧
      compile { limits := { maxFacets := some 2 } } sitePanels siteVisits = .ok scene ∧
      ∃ e, compile { limits := { maxFacets := some 1 } } sitePanels siteVisits = .error e ∧
        e.kind = .budgetExceeded := by
  obtain ⟨scene, head, children, htwo, hroot, hpath, hlength⟩ : ∃ scene head children,
      compile { limits := { maxFacets := some 2 } } sitePanels siteVisits = .ok scene ∧
        scene.root = .group head children ∧ head.path = .root ∧ children.length = 2 :=
    ⟨_, _, _, rfl, rfl, rfl, rfl⟩
  have hunlimited : compile {} sitePanels siteVisits = .ok scene :=
    (((compile_eq_ok_iff_unlimited _ _ _).1 scene).1 htwo).1
  refine ⟨scene, hunlimited, htwo, ?_⟩
  refine (compile_eq_ok_iff_unlimited { limits := { maxFacets := some 1 } } _ _).2.1 scene
    hunlimited fun hwithin => ?_
  have hself : SceneNode.Holds (.group head children) scene.root := by
    rw [hroot]
    exact .self
  have hat : sitePanels.at? head.path.indices = some sitePanels := by
    rw [hpath]
    rfl
  have hone := (hwithin.facets head children sitePanels hself hat rfl).1 1 rfl
  omega

end PlotGrammar
