import PlotGrammar.Proofs.Evaluation.Inheritance
import PlotGrammar.Proofs.Evaluation.Tables
import PlotGrammar.Proofs.Pipeline.Outcomes
import PlotGrammar.Proofs.Table.Classes

/-! # The groups of a mark

  A mark goes over the rows of its table once and puts each of them into the
  group of its key. What the groups come to is `Table.Grouped`: they split the
  rows by their cells under the grouping fields, and rows and groups stay in
  the order of the table.

  - The groups are made of the classes of the rows, one of each
    (`MarkGroup.IsOf`), and so they split the rows as the classes do
    (`Table.grouped_of_isOf`).
  - No grouping field is lost on the way to the mark: those of the steps are
    fields of the derived table, and the field of the grouping channel has been
    resolved against it (`filter_groupingFields`).

  `groups_of_compile` says this of every leaf of a scene.
-/

namespace PlotGrammar

namespace Table

/-- The groups split the rows of a table by their cells under some fields. -/
structure Grouped (t : Table) (fields : List String) (groups : List MarkGroup) : Prop where
  /-- No field is repeated. -/
  nodup : fields.Nodup
  /-- The table has all of the fields. -/
  hasField : ∀ field ∈ fields, t.hasField field = true
  /-- The key of a group has a cell for every field, in the order of the fields. -/
  names : ∀ group ∈ groups, group.key.map Prod.fst = fields
  /-- The cells of the key are those of the first row. -/
  key : ∀ group ∈ groups, ∀ r ∈ group.rows.head?, ∀ entry ∈ group.key,
    t.value? r entry.1 = some entry.2
  /-- The rows of a group keep their order. -/
  increasing : ∀ group ∈ groups, group.rows.Pairwise (· < ·)
  /-- All groups together have every row once. -/
  perm : (groups.flatMap MarkGroup.rows).Perm (List.range t.height)
  /-- There is an instance for each row of a group, in the same order. -/
  instances : ∀ group ∈ groups, group.instances.map MarkInstance.row = group.rows
  /-- Two rows are in one group if they have equal cells under all fields, and
      only then. -/
  same : ∀ r s, r < t.height → s < t.height →
    ((∃ group ∈ groups, r ∈ group.rows ∧ s ∈ group.rows) ↔
      ∀ field ∈ fields, (t.value? r field == t.value? s field) = true)
  /-- The groups are in the order of their first rows. -/
  ordered : groups.Pairwise fun group later =>
    ∀ r ∈ group.rows.head?, ∀ s ∈ later.rows.head?, r < s
  /-- A group has a row, unless there are neither fields nor rows, -/
  nonempty : ∀ group ∈ groups, group.rows = [] → fields = [] ∧ t.height = 0
  /-- where there is one group and it is empty. -/
  blank : fields = [] → t.height = 0 → groups = [⟨[], [], []⟩]

end Table

/-! ### Grouping fields -/

/-- The field of the grouping channel comes after the others if it is not among
    them. -/
theorem groupingFields_eq (groupBy : List String) (detail : Option String) :
    groupingFields groupBy detail =
      groupBy ++ detail.toList.filter fun field => !groupBy.contains field := by
  cases detail with
  | none => simp [groupingFields]
  | some field =>
    simp only [groupingFields, Pipeline.withName, Option.toList_some]
    by_cases hmem : groupBy.contains field = true
    · rw [if_pos hmem, List.filter_cons_of_neg (by simpa using hmem), List.filter_nil,
        List.append_nil]
    · rw [if_neg hmem, List.filter_cons_of_pos (by simpa using hmem), List.filter_nil]

theorem nodup_groupingFields {groupBy : List String} (h : groupBy.Nodup)
    (detail : Option String) : (groupingFields groupBy detail).Nodup := by
  cases detail with
  | none => exact h
  | some field => exact Pipeline.nodup_withName h field

/-- The grouping fields of a mark are fields of its table. -/
theorem hasField_of_mem_groupingFields {o : Pipeline.Outcome} {e : ResolvedEncoding}
    (hgroupBy : ∀ field ∈ o.groupBy, o.table.hasField field = true) (he : e.FieldsIn o.table)
    {field : String} (h : field ∈ groupingFields o.groupBy e.detailField?) :
    o.table.hasField field = true := by
  cases hdetail : e.detailField? with
  | none =>
    rw [hdetail] at h
    exact hgroupBy field h
  | some detail =>
    rw [hdetail, groupingFields, Pipeline.mem_withName] at h
    rcases h with h | rfl
    · exact hgroupBy field h
    · -- The grouping channel has been resolved.
      unfold ResolvedEncoding.detailField? at hdetail
      split at hdetail
      · next name type hbound =>
        cases hdetail
        exact he .detail _ type hbound
      · cases hdetail

/-- The field of a resolved grouping channel is the one that the channels of the
    node name. -/
theorem detailField?_of_resolve {t : Table} {inherited : Channels} {own : Encoding}
    {e : ResolvedEncoding} (h : resolve t inherited own = .ok e) :
    e.detailField? = ((inherit inherited own).get? .detail).bind Definition.fieldName? := by
  unfold ResolvedEncoding.detailField?
  rw [get?_of_resolve h]
  cases (inherit inherited own).get? .detail with
  | none => rfl
  | some d =>
    cases d with
    | literal value => rfl
    | field name type => rfl

/-! ### Groups of classes -/

/-- A group has the rows of a class, with an instance for each. -/
structure MarkGroup.IsOf (fields : List String) (c : List Cell × List (List Cell × Nat))
    (group : MarkGroup) : Prop where
  key : group.key = fields.zip c.1
  rows : group.rows = c.2.map Prod.snd
  instances : group.instances.map MarkInstance.row = c.2.map Prod.snd

theorem isOf_of_groupOf {o : Pipeline.Outcome} {e : ResolvedEncoding} {fields : List String}
    {c : List Cell × List (List Cell × Nat)} {group : MarkGroup}
    (h : groupOf o e fields c = .ok group) : group.IsOf fields c := by
  obtain ⟨instances, hinstances, h⟩ := bind_eq_ok_iff.1 h
  cases h
  refine ⟨rfl, rfl, ?_⟩
  refine (map_eq_map_of_forall₂ (mapM_eq_ok_iff.1 hinstances) fun member _ i hi => ?_).symm
  obtain ⟨channels, -, hi⟩ := bind_eq_ok_iff.1 hi
  cases hi
  rfl

namespace Table

section

variable {t : Table} {fields : List String} {groups : List MarkGroup}
  (hmade : List.Forall₂ (fun c (group : MarkGroup) => group.IsOf fields c)
    (t.classes (fields.filterMap t.fieldIndex?)) groups)
include hmade

/-- The rows of the groups are those of the classes. -/
theorem map_rows_of_isOf :
    (t.classes (fields.filterMap t.fieldIndex?)).map (fun c => c.2.map Prod.snd) =
      groups.map MarkGroup.rows :=
  map_eq_map_of_forall₂ hmade fun _ _ _ hof => hof.rows.symm

theorem perm_rows_of_isOf : (groups.flatMap MarkGroup.rows).Perm (List.range t.height) := by
  have hperm := (t.perm_classes (fields.filterMap t.fieldIndex?)).map Prod.snd
  rw [List.map_flatMap, List.flatMap_def, map_rows_of_isOf hmade, ← List.flatMap_def,
    List.zipIdx_map_snd, ← List.range_eq_range'] at hperm
  exact hperm

variable (hfields : ∀ field ∈ fields, t.hasField field = true)
include hfields

theorem same_group_iff (hrect : t.Rectangular) {r s : Nat} (hr : r < t.height)
    (hs : s < t.height) :
    (∃ group ∈ groups, r ∈ group.rows ∧ s ∈ group.rows) ↔
      ∀ field ∈ fields, (t.value? r field == t.value? s field) = true := by
  rw [← same_class_iff hrect hfields hr hs]
  -- Only the rows of a group count, and they are those of its class.
  have hboth : (∃ rows ∈ groups.map MarkGroup.rows, r ∈ rows ∧ s ∈ rows) ↔
      ∃ group ∈ groups, r ∈ group.rows ∧ s ∈ group.rows := by
    simp only [List.mem_map, exists_exists_and_eq_and]
  rw [← hboth, ← map_rows_of_isOf hmade]
  simp only [List.mem_map, exists_exists_and_eq_and]

/-- The groups are in the order of their first rows, as the classes are. -/
theorem pairwise_groups : groups.Pairwise fun group later =>
    ∀ r ∈ group.rows.head?, ∀ s ∈ later.rows.head?, r < s := by
  have hordered : (groups.map MarkGroup.rows).Pairwise fun rows later =>
      ∀ r ∈ rows.head?, ∀ s ∈ later.head?, r < s := by
    rw [← map_rows_of_isOf hmade, List.pairwise_map]
    refine (pairwise_classes hfields).imp fun {c later} hheads r hr s hs => ?_
    rw [List.head?_map, Option.mem_def, Option.map_eq_some_iff] at hr hs
    obtain ⟨row, hrow, rfl⟩ := hr
    obtain ⟨other, hother, rfl⟩ := hs
    exact hheads row hrow other hother
  exact List.pairwise_map.1 hordered

omit hfields in
/-- Without fields and rows there is the empty class only. -/
theorem eq_of_isOf_of_blank (hnil : fields = []) (hheight : t.height = 0) :
    groups = [⟨[], [], []⟩] := by
  subst hnil
  have hclasses : t.classes [] = [([], [])] := by
    rw [classes, List.eq_nil_of_length_eq_zero hheight]
    rfl
  rw [List.filterMap_nil, hclasses] at hmade
  obtain ⟨group, rest, hof, hrest, rfl⟩ := List.forall₂_cons_left_iff.1 hmade
  obtain rfl := List.forall₂_nil_left_iff.1 hrest
  obtain ⟨key, rows, instances⟩ := group
  obtain rfl : instances = [] := List.map_eq_nil_iff.1 hof.instances
  rw [show key = [] from hof.key, show rows = [] from hof.rows]

/-- Groups of all classes of the rows split the rows. -/
theorem grouped_of_isOf (hrect : t.Rectangular) (hnodup : fields.Nodup) :
    t.Grouped fields groups := by
  have hclass : ∀ group ∈ groups, ∃ c ∈ t.classes (fields.filterMap t.fieldIndex?),
      group.IsOf fields c := fun group => exists_of_forall₂_of_mem hmade
  constructor
  case nodup => exact hnodup
  case hasField => exact hfields
  case names =>
    intro group hgroup
    obtain ⟨c, hc, hof⟩ := hclass group hgroup
    rw [hof.key]
    exact map_fst_zip_key hfields hc
  case key =>
    intro group hgroup r hr entry hentry
    obtain ⟨c, hc, hof⟩ := hclass group hgroup
    rw [hof.rows] at hr
    rw [hof.key] at hentry
    exact value?_of_mem_zip_key hfields hc hrect hr hentry
  case increasing =>
    intro group hgroup
    obtain ⟨c, hc, hof⟩ := hclass group hgroup
    rw [hof.rows]
    exact increasing_class hfields hc
  case perm => exact perm_rows_of_isOf hmade
  case instances =>
    intro group hgroup
    obtain ⟨c, -, hof⟩ := hclass group hgroup
    rw [hof.instances, hof.rows]
  case same => exact fun r s hr hs => same_group_iff hmade hfields hrect hr hs
  case ordered => exact pairwise_groups hmade hfields
  case nonempty =>
    intro group hgroup hnil
    obtain ⟨c, hc, hof⟩ := hclass group hgroup
    rw [hof.rows, List.map_eq_nil_iff] at hnil
    obtain ⟨hfields, hnone⟩ := rows_eq_nil_of_mem_classes hfields hc hnil
    exact ⟨hfields, by rw [height, hnone]; rfl⟩
  case blank => exact eq_of_isOf_of_blank hmade

end

end Table

section

variable {o : Pipeline.Outcome} {e : ResolvedEncoding} {groups : List MarkGroup}

/-- None of the grouping fields of a mark is left out. -/
theorem filter_groupingFields (hgroupBy : ∀ field ∈ o.groupBy, o.table.hasField field = true)
    (he : e.FieldsIn o.table) :
    (groupingFields o.groupBy e.detailField?).filter o.table.hasField =
      groupingFields o.groupBy e.detailField? :=
  List.filter_eq_self.2 fun _ hmem => hasField_of_mem_groupingFields hgroupBy he hmem

/-- A mark draws its rows in groups by their cells under the grouping fields. -/
theorem grouped_of_markGroups (hrect : o.table.Rectangular) (hnodup : o.groupBy.Nodup)
    (hgroupBy : ∀ field ∈ o.groupBy, o.table.hasField field = true) (he : e.FieldsIn o.table)
    (h : markGroups o e = .ok groups) :
    o.table.Grouped (groupingFields o.groupBy e.detailField?) groups := by
  simp only [markGroups, filter_groupingFields hgroupBy he] at h
  -- Every class of rows has been drawn as a group.
  have hmade := (mapM_eq_ok_iff.1 h).imp fun _ _ hgroup => isOf_of_groupOf hgroup
  have hfields : ∀ field ∈ groupingFields o.groupBy e.detailField?,
      o.table.hasField field = true := fun _ hmem =>
    hasField_of_mem_groupingFields hgroupBy he hmem
  exact Table.grouped_of_isOf hmade hfields hrect (nodup_groupingFields hnodup e.detailField?)

end

/-! ### Leaves -/

/-- A call for a mark has drawn a leaf. -/
structure MarkLeaf.DrawnBy (config : Config) (v : View) (t : Table) (leaf : MarkLeaf) (c : Call)
    (head : ViewHead) (o : Pipeline.Outcome) : Prop where
  /-- Compiling the view comes to the call. -/
  reached : Reached config v t c
  /-- The call gives the leaf. -/
  gives : c.run config = .ok (.marks leaf)
  /-- The node of the leaf is the mark. -/
  node : v.at? leaf.path.indices = some (.mark head leaf.mark)
  /-- The steps of the node have been run. -/
  ran : Pipeline.run config.maxBins c.table head.steps
    (inherit c.inherited head.encoding).fieldNames = .ok o
  /-- The leaf has the table that they lead to. -/
  table : o.table = leaf.table
  /-- The channels of the node have been resolved against it. -/
  resolved : resolve leaf.table c.inherited head.encoding = .ok leaf.encoding
  /-- The rows have been grouped. -/
  groups : markGroups o leaf.encoding = .ok leaf.groups

/-- The field that the grouping channel of a node refers to. -/
def detailOf (inherited : Channels) (head : ViewHead) : Option String :=
  ((inherit inherited head.encoding).get? .detail).bind Definition.fieldName?

section

variable {config : Config} {v : View} {t : Table} {scene : Scene} {leaf : MarkLeaf} {c : Call}
  {head : ViewHead}

/-- Every leaf of a scene was drawn by a call. -/
theorem exists_drawnBy (h : compile config v t = .ok scene) (hleaf : leaf ∈ scene.leaves) :
    ∃ c head o, leaf.DrawnBy config v t c head o := by
  obtain ⟨c, hc, hgives⟩ := exists_reached_of_mem_leaves h hleaf
  obtain ⟨head, o, hview, hpath, hprepare, htable, hgroups⟩ := Call.exists_of_run_eq_marks hgives
  obtain ⟨above, -, hat⟩ := hc.exists_above
  obtain ⟨hran, hresolved⟩ := prepare_eq_ok_iff.1 hprepare
  rw [hpath, hview] at hat
  rw [htable] at hresolved
  exact ⟨c, head, o, hc, hgives, hat, hran, htable, hresolved, hgroups⟩

/-- The groups of a leaf split its rows by the grouping of its steps and by the
    field of the grouping channel. -/
theorem MarkLeaf.DrawnBy.grouped {o : Pipeline.Outcome} (h : leaf.DrawnBy config v t c head o)
    (hrect : leaf.table.Rectangular) :
    leaf.table.Grouped (groupingFields o.groupBy (detailOf c.inherited head)) leaf.groups := by
  obtain ⟨hnodup, hgroupBy⟩ := Pipeline.groupBy_of_run h.ran
  have he := fieldsIn_of_resolve h.resolved
  have hdetail := detailField?_of_resolve h.resolved
  rw [← h.table] at hrect he ⊢
  rw [detailOf, ← hdetail]
  exact grouped_of_markGroups hrect hnodup hgroupBy he h.groups

/-- The groups of every leaf of a scene split its rows. The fields of their
    keys are the grouping of the steps of the node, and after it the field of
    the grouping channel if it is not among them. -/
theorem groups_of_compile (ht : t.Made) (h : compile config v t = .ok scene)
    (hleaf : leaf ∈ scene.leaves) :
    ∃ c head o, leaf.DrawnBy config v t c head o ∧
      leaf.table.Grouped
        (o.groupBy ++ (detailOf c.inherited head).toList.filter fun field =>
          !o.groupBy.contains field)
        leaf.groups := by
  obtain ⟨c, head, o, hdrawn⟩ := exists_drawnBy h hleaf
  have hgrouped := hdrawn.grouped (ht.of_mem_leaves h hleaf).rectangular
  rw [groupingFields_eq] at hgrouped
  exact ⟨c, head, o, hdrawn, hgrouped⟩

end

/-- A line for each name in a bucket. -/
def linesByName : View :=
  .mark { steps := [.bin ⟨"foo", "bucket", none, none⟩]
          encoding := { detail := some (.field "name" none) } } .line

/-- Three rows under two names; what is to be put into buckets are no numbers. -/
def namedTexts : Table :=
  .ofColumns [("name", [.text "a", .text "b", .text "a"]), ("foo", [.text "1", .text "2", .null])]

/-- Two lines, one of which goes on after the other has started. -/
theorem groups_of_compile_of_lines :
    ∃ scene leaf, compile {} linesByName namedTexts = .ok scene ∧ leaf ∈ scene.leaves ∧
      leaf.groups.map MarkGroup.rows = [[0, 2], [1]] ∧
      leaf.table.Grouped ["bucket", "name"] leaf.groups := by
  obtain ⟨scene, leaf, hscene, hleaf, hrows, hnames⟩ :
      ∃ scene leaf, compile {} linesByName namedTexts = .ok scene ∧ leaf ∈ scene.leaves ∧
        leaf.groups.map MarkGroup.rows = [[0, 2], [1]] ∧
        leaf.groups.map (fun group => group.key.map Prod.fst) =
          [["bucket", "name"], ["bucket", "name"]] :=
    ⟨_, _, rfl, List.mem_singleton.2 rfl, rfl, rfl⟩
  obtain ⟨c, head, o, -, hgrouped⟩ := groups_of_compile (.ofColumns _) hscene hleaf
  refine ⟨scene, leaf, hscene, hleaf, hrows, ?_⟩
  -- The fields are those of the keys, of which there are some.
  cases hgroups : leaf.groups with
  | nil =>
    rw [hgroups] at hrows
    cases hrows
  | cons group rest =>
    have hfirst := hgrouped.names group (by rw [hgroups]; exact List.mem_cons_self)
    rw [hgroups, List.map_cons, List.cons.injEq] at hnames
    rw [← hfirst, hnames.1, hgroups] at hgrouped
    exact hgrouped

end PlotGrammar
