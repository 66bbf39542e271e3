import PlotGrammar.Compilation
import PlotGrammar.Proofs.Resolution
import PlotGrammar.Proofs.Table.Partition

/-! # Drawing marks

  Once the channels of a mark are resolved against its table, nothing can fail
  but its layout directive and the limit on instances (`exists_markGroups`).

  An instance carries for each drawn channel what the encoding binds, and the
  flag of a field says whether the aggregated fields hold it
  (`flag_of_instanceOf`).
-/

namespace PlotGrammar

/-- Every field that an encoding binds is in a table. -/
def ResolvedEncoding.FieldsIn (e : ResolvedEncoding) (t : Table) : Prop :=
  ∀ c name type, e.channels.get? c = some (.field name type) → t.hasField name = true

/-- Resolving against a table binds fields of the table only. -/
theorem fieldsIn_of_resolve {t : Table} {inherited : Channels} {own : Encoding}
    {e : ResolvedEncoding} (h : resolve t inherited own = .ok e) : e.FieldsIn t :=
  fun _ _ _ hbound => (field_of_resolve h hbound).1

/-! ### Nothing fails -/

theorem exists_bind {o : Pipeline.Outcome} {row : List Cell} {b : Binding}
    (h : ∀ name type, b = .field name type → o.table.hasField name = true) :
    ∃ value, b.bind o row = .ok value := by
  cases b with
  | constant value => exact ⟨_, rfl⟩
  | field name type =>
    obtain ⟨position, hposition⟩ := Table.hasField_iff_exists.1 (h name type rfl)
    simp only [Binding.bind, hposition]
    exact ⟨_, rfl⟩

theorem exists_instanceOf {o : Pipeline.Outcome} {e : ResolvedEncoding} (h : e.FieldsIn o.table)
    (row : List Cell) (index : Nat) : ∃ i, instanceOf o e row index = .ok i := by
  have hbind : ∀ c b, (e.channels.filter Channel.isVisual).get? c = some b →
      ∃ value, b.bind o row = .ok value := by
    intro c b hb
    refine exists_bind fun name type hfield => h c name type ?_
    rw [← hfield]
    exact ChannelMap.get?_of_filter hb
  obtain ⟨channels, hchannels⟩ := ChannelMap.exists_mapM_eq_ok hbind
  exact ⟨⟨index, channels⟩, bind_eq_ok_iff.2 ⟨channels, hchannels, rfl⟩⟩

theorem exists_groupOf {o : Pipeline.Outcome} {e : ResolvedEncoding} (h : e.FieldsIn o.table)
    (fields : List String) (group : List Cell × List (List Cell × Nat)) :
    ∃ g, groupOf o e fields group = .ok g := by
  obtain ⟨instances, hinstances⟩ := exists_mapM_eq_ok
    fun (member : List Cell × Nat) (_ : member ∈ group.2) => exists_instanceOf h member.1 member.2
  exact ⟨_, bind_eq_ok_iff.2 ⟨instances, hinstances, rfl⟩⟩

/-- The groups of a mark can be formed. -/
theorem exists_markGroups {o : Pipeline.Outcome} {e : ResolvedEncoding} (h : e.FieldsIn o.table) :
    ∃ groups, markGroups o e = .ok groups :=
  exists_mapM_eq_ok fun group _ => exists_groupOf h _ group

/-! ### What an instance carries -/

/-- The flag of a bound field. -/
theorem flag_of_bind {o : Pipeline.Outcome} {row : List Cell} {b : Binding} {name : String}
    {type : FieldType} {value : Cell} {flag : Bool}
    (h : b.bind o row = .ok (.field name type value flag)) :
    b = .field name type ∧ flag = o.aggregated.contains name := by
  cases b with
  | constant other => cases h
  | field other otherType =>
    rw [Binding.bind] at h
    split at h
    · cases h
    · cases h
      exact ⟨rfl, rfl⟩

/-- A field that an instance binds is one that the encoding binds, with the
    flag that the aggregated fields give. -/
theorem flag_of_instanceOf {o : Pipeline.Outcome} {e : ResolvedEncoding} {row : List Cell}
    {index : Nat} {i : MarkInstance} (h : instanceOf o e row index = .ok i) {c : Channel}
    {name : String} {type : FieldType} {value : Cell} {flag : Bool}
    (hbound : i.channels.get? c = some (.field name type value flag)) :
    e.channels.get? c = some (.field name type) ∧ flag = o.aggregated.contains name := by
  obtain ⟨channels, hchannels, h⟩ := bind_eq_ok_iff.1 h
  cases h
  -- Go back from the bound value to the binding that it was made from.
  have hmap := ChannelMap.map_get?_of_mapM hchannels c
  rw [hbound, Option.map_some, Option.map_eq_some_iff] at hmap
  obtain ⟨b, hb, hbind⟩ := hmap
  obtain ⟨rfl, hflag⟩ := flag_of_bind hbind
  exact ⟨ChannelMap.get?_of_filter hb, hflag⟩

/-- Every instance of a group of a mark is the instance of its row. -/
theorem exists_instanceOf_of_mem {o : Pipeline.Outcome} {e : ResolvedEncoding}
    {groups : List MarkGroup} (h : markGroups o e = .ok groups) {group : MarkGroup}
    (hgroup : group ∈ groups) {i : MarkInstance} (hi : i ∈ group.instances) :
    ∃ row index, o.table.rows[index]? = some row ∧ instanceOf o e row index = .ok i := by
  obtain ⟨members, hclass, hmembers⟩ := exists_of_mem_mapM h hgroup
  obtain ⟨instances, hinstances, hmembers⟩ := bind_eq_ok_iff.1 hmembers
  cases hmembers
  obtain ⟨⟨row, index⟩, hmember, hinstance⟩ := exists_of_mem_mapM hinstances hi
  -- The classes have no rows but those of the table.
  have hrow : (row, index) ∈ o.table.rows.zipIdx :=
    (o.table.perm_classes _).mem_iff.1 (List.mem_flatMap.2 ⟨members, hclass, hmember⟩)
  exact ⟨row, index, List.mk_mem_zipIdx_iff_getElem?.1 hrow, hinstance⟩

/-! ### Drawing -/

/-- What drawing a mark takes and gives. -/
theorem drawMark_eq_ok_iff {config : Config} {path : NodePath} {mark : MarkKind}
    {e : ResolvedEncoding} {o : Pipeline.Outcome} {node : SceneNode} :
    drawMark config path mark e o = .ok node ↔
      (∃ composition, config.settleLayout e.layout false = .ok composition) ∧
      checkLimit .markInstances config.limits.maxMarkInstances o.table.height = .ok () ∧
      ∃ groups, markGroups o e = .ok groups ∧ node = .marks ⟨path, mark, e, o.table, groups⟩ := by
  simp only [drawMark, bind_eq_ok_iff]
  constructor
  · intro ⟨composition, hlayout, _, hlimit, groups, hgroups, hnode⟩
    cases hnode
    exact ⟨⟨composition, hlayout⟩, hlimit, groups, hgroups, rfl⟩
  · intro ⟨⟨composition, hlayout⟩, hlimit, groups, hgroups, hnode⟩
    exact ⟨composition, hlayout, (), hlimit, groups, hgroups, by rw [hnode]; rfl⟩

end PlotGrammar
