import PlotGrammar.Proofs.Evaluation.Groups
import PlotGrammar.Proofs.Pipeline.Keyed

/-! # One instance for each aggregated group

  Rows are grouped twice on the way to a mark that draws an aggregate: by the
  aggregate, which leaves one row of each group, and by the mark itself. The
  mark groups by the same fields and by the field of the grouping channel, so
  it finds no two rows to put together.

  - The group keys of the last aggregate tell the rows apart, unless a bin step
    has written over one of them (`Pipeline.keyed_of_run`).
  - More fields in a key do not make rows equal (`Table.Grouped.rows_eq`).

  `single_of_compile` says what this comes to for a leaf (`MarkLeaf.Single`).
-/

namespace PlotGrammar

/-- Every row of a leaf has a group of its own. -/
structure MarkLeaf.Single (leaf : MarkLeaf) (groupBy : List String) (detail : Option String) :
    Prop where
  /-- Every group has one row, -/
  rows : ∀ group ∈ leaf.groups, ∃ r, group.rows = [r]
  /-- and one instance. -/
  instances : ∀ group ∈ leaf.groups, ∃ i, group.instances = [i]
  /-- There are as many groups as rows. -/
  length : leaf.groups.length = leaf.table.height
  /-- No two groups have equal keys. -/
  keys : leaf.groups.Pairwise fun group other =>
    (group.key.map Prod.snd == other.key.map Prod.snd) = false
  /-- Without a grouping there is one group, by the field of the grouping
      channel only. -/
  whole : groupBy = [] → ∃ group, leaf.groups = [group] ∧ group.key.map Prod.fst = detail.toList

namespace Table.Grouped

variable {t : Table} {fields groupBy : List String} {groups : List MarkGroup}

/-- The groups have no rows but those of the table. -/
theorem lt_height (h : t.Grouped fields groups) {group : MarkGroup} (hgroup : group ∈ groups)
    {r : Nat} (hr : r ∈ group.rows) : r < t.height :=
  List.mem_range.1 (h.perm.mem_iff.1 (List.mem_flatMap.2 ⟨group, hgroup, hr⟩))

/-- Two rows of one group are the same if they differ under some of its
    fields. -/
theorem rows_eq (h : t.Grouped fields groups) (hkeyed : t.Keyed groupBy)
    (hsub : ∀ field ∈ groupBy, field ∈ fields) {group : MarkGroup} (hgroup : group ∈ groups)
    {r s : Nat} (hr : r ∈ group.rows) (hs : s ∈ group.rows) : r = s := by
  have hltr := h.lt_height hgroup hr
  have hlts := h.lt_height hgroup hs
  have hcells := (h.same r s hltr hlts).1 ⟨group, hgroup, hr, hs⟩
  exact hkeyed r s hltr hlts fun field hmem => hcells field (hsub field hmem)

/-- So a group has one row. -/
theorem exists_rows_eq (h : t.Grouped fields groups) (hkeyed : t.Keyed groupBy)
    (hsub : ∀ field ∈ groupBy, field ∈ fields) (hone : groupBy = [] → t.height = 1)
    {group : MarkGroup} (hgroup : group ∈ groups) : ∃ r, group.rows = [r] := by
  cases hrows : group.rows with
  | nil =>
    -- A group without rows is only in a table without rows.
    obtain ⟨hfields, hheight⟩ := h.nonempty group hgroup hrows
    have hnil : groupBy = [] := by
      apply List.eq_nil_iff_forall_not_mem.2
      intro field hmem
      have hfield := hsub field hmem
      rw [hfields] at hfield
      cases hfield
    rw [hone hnil] at hheight
    cases hheight
  | cons r rest =>
    have hincreasing := h.increasing group hgroup
    rw [hrows, List.pairwise_cons] at hincreasing
    have hrest : rest = [] := by
      apply List.eq_nil_iff_forall_not_mem.2
      intro s hs
      have hsame : r = s := h.rows_eq hkeyed hsub hgroup
        (by rw [hrows]; exact List.mem_cons_self) (by rw [hrows]; exact List.mem_cons_of_mem _ hs)
      have hlt := hincreasing.1 s hs
      omega
    exact ⟨r, by rw [hrest]⟩

/-- The cells of the key of a group are what its first row has under the
    fields. -/
theorem map_value?_eq (h : t.Grouped fields groups) {group : MarkGroup} (hgroup : group ∈ groups)
    {r : Nat} (hr : r ∈ group.rows.head?) :
    fields.map (t.value? r) = (group.key.map Prod.snd).map some := by
  rw [← h.names group hgroup, List.map_map, List.map_map]
  exact List.map_congr_left fun entry hentry => h.key group hgroup r hr entry hentry

/-- Groups with equal keys have first rows with equal cells. -/
theorem value?_beq_of_key_beq (h : t.Grouped fields groups) {group other : MarkGroup}
    (hgroup : group ∈ groups) (hother : other ∈ groups) {r s : Nat} (hr : r ∈ group.rows.head?)
    (hs : s ∈ other.rows.head?)
    (hkey : (group.key.map Prod.snd == other.key.map Prod.snd) = true) :
    ∀ field ∈ fields, (t.value? r field == t.value? s field) = true := by
  rw [← map_some_beq_map_some, ← h.map_value?_eq hgroup hr, ← h.map_value?_eq hother hs,
    map_beq_map] at hkey
  exact hkey

/-- If each group has one row, no two groups have equal keys. -/
theorem pairwise_key (h : t.Grouped fields groups) (hkeyed : t.Keyed groupBy)
    (hsub : ∀ field ∈ groupBy, field ∈ fields)
    (hrows : ∀ group ∈ groups, ∃ r, group.rows = [r]) :
    groups.Pairwise fun group other =>
      (group.key.map Prod.snd == other.key.map Prod.snd) = false := by
  have hdisjoint := (List.nodup_flatMap.1 (h.perm.nodup_iff.2 List.nodup_range)).2
  refine hdisjoint.imp_of_mem fun {group other} hgroup hother hdisjoint => ?_
  obtain ⟨r, hr⟩ := hrows group hgroup
  obtain ⟨s, hs⟩ := hrows other hother
  rw [Bool.eq_false_iff]
  intro hkey
  have hcells := h.value?_beq_of_key_beq hgroup hother (r := r) (s := s) (by rw [hr]; rfl)
    (by rw [hs]; rfl) hkey
  have hmemr : r ∈ group.rows := by rw [hr]; exact List.mem_cons_self
  have hmems : s ∈ other.rows := by rw [hs]; exact List.mem_cons_self
  have hsame : r = s := hkeyed r s (h.lt_height hgroup hmemr) (h.lt_height hother hmems)
    fun field hmem => hcells field (hsub field hmem)
  rw [hsame] at hmemr
  exact hdisjoint hmemr hmems

/-- If each group has one row, there are as many groups as rows. -/
theorem length_eq (h : t.Grouped fields groups) (hrows : ∀ group ∈ groups, ∃ r, group.rows = [r]) :
    groups.length = t.height := by
  have hone : ∀ group ∈ groups, group.rows.length = 1 := by
    intro group hgroup
    obtain ⟨r, hr⟩ := hrows group hgroup
    rw [hr]
    rfl
  have hlength := h.perm.length_eq
  rw [List.length_flatMap, List.map_congr_left hone, List.length_range] at hlength
  simpa using hlength

end Table.Grouped

/-- Every row of a leaf has a group of its own if the grouping of its steps
    tells the rows apart. -/
theorem MarkLeaf.single_of_keyed {leaf : MarkLeaf} {groupBy : List String} {detail : Option String}
    (h : leaf.table.Grouped (groupingFields groupBy detail) leaf.groups)
    (hkeyed : leaf.table.Keyed groupBy) (hone : groupBy = [] → leaf.table.height = 1) :
    leaf.Single groupBy detail := by
  have hsub : ∀ field ∈ groupBy, field ∈ groupingFields groupBy detail := by
    intro field hmem
    rw [groupingFields_eq]
    exact List.mem_append_left _ hmem
  have hrows : ∀ group ∈ leaf.groups, ∃ r, group.rows = [r] := fun _ hgroup =>
    h.exists_rows_eq hkeyed hsub hone hgroup
  have hlength := h.length_eq hrows
  refine ⟨hrows, ?_, hlength, h.pairwise_key hkeyed hsub hrows, ?_⟩
  · intro group hgroup
    obtain ⟨r, hr⟩ := hrows group hgroup
    have hinstances := congrArg List.length (h.instances group hgroup)
    rw [hr, List.length_map] at hinstances
    exact List.length_eq_one_iff.1 hinstances
  · intro hnil
    rw [hone hnil] at hlength
    obtain ⟨group, hgroup⟩ := List.length_eq_one_iff.1 hlength
    refine ⟨group, hgroup, ?_⟩
    rw [h.names group (by rw [hgroup]; exact List.mem_cons_self), groupingFields_eq, hnil]
    simp

/-- A leaf whose node has an aggregate, and no bin step after the last one that
    writes over a field of its grouping, has one instance for each row. -/
theorem single_of_compile {config : Config} {v : View} {t : Table} {scene : Scene} (ht : t.Made)
    (h : compile config v t = .ok scene) {leaf : MarkLeaf} (hleaf : leaf ∈ scene.leaves) :
    ∃ c head o, leaf.DrawnBy config v t c head o ∧
      ∀ before step after, head.steps = before ++ .aggregate step :: after →
        (∀ later, .aggregate later ∉ after) →
        (∃ s, before.foldlM (Pipeline.State.next config.maxBins
              (inherit c.inherited head.encoding).fieldNames) (.initial c.table) = .ok s ∧
            o.groupBy = Pipeline.inferredGroupBy s step
              (inherit c.inherited head.encoding).fieldNames) ∧
          ((∀ later ∈ after, later.out ∉ o.groupBy) →
            leaf.Single o.groupBy (detailOf c.inherited head)) := by
  obtain ⟨c, head, o, hdrawn⟩ := exists_drawnBy h hleaf
  refine ⟨c, head, o, hdrawn, fun before step after hsteps hlast => ?_⟩
  have hran := hdrawn.ran
  rw [hsteps] at hran
  obtain ⟨s, reduced, hs, hgroupBy, -, -⟩ := Pipeline.exists_reduced_of_run hlast hran
  refine ⟨⟨s, hs, hgroupBy⟩, fun hkept => ?_⟩
  obtain ⟨hkeyed, hone⟩ := Pipeline.keyed_of_run hlast hran hkept
  rw [hdrawn.table] at hkeyed hone
  exact MarkLeaf.single_of_keyed (hdrawn.grouped (ht.of_mem_leaves h hleaf).rectangular) hkeyed hone

/-- A bar for each name in a bucket, as high as the count of its rows. -/
def countsByName : View :=
  .mark { steps := [.bin ⟨"foo", "bucket", none, none⟩, .aggregate ⟨"count", none, "n"⟩]
          encoding := { x := some (.field "name" none), y := some (.field "n" none)
                        detail := some (.field "bucket" none) } } .bar

/-- There are two bars, one for each name. -/
theorem single_of_compile_of_counts :
    ∃ scene leaf, compile {} countsByName namedTexts = .ok scene ∧ leaf ∈ scene.leaves ∧
      leaf.table.height = 2 ∧ leaf.groups.length = 2 ∧
      ∃ groupBy detail, leaf.Single groupBy detail := by
  obtain ⟨scene, leaf, hscene, hleaf, hpath, hheight⟩ :
      ∃ scene leaf, compile {} countsByName namedTexts = .ok scene ∧ leaf ∈ scene.leaves ∧
        leaf.path = .root ∧ leaf.table.height = 2 :=
    ⟨_, _, rfl, List.mem_singleton.2 rfl, rfl, rfl⟩
  obtain ⟨c, head, o, hdrawn, hsplit⟩ := single_of_compile (.ofColumns _) hscene hleaf
  have hnode := hdrawn.node
  rw [hpath] at hnode
  obtain ⟨rfl, -⟩ := View.mark.inj (Option.some.inj hnode)
  -- No step comes after the aggregate.
  obtain ⟨-, hsingle⟩ := hsplit [_] _ [] rfl (fun _ hmem => by cases hmem)
  have hsingle := hsingle fun later hmem => by cases hmem
  exact ⟨scene, leaf, hscene, hleaf, hheight, hsingle.length.trans hheight, _, _, hsingle⟩

end PlotGrammar
