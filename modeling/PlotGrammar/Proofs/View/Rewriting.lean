import PlotGrammar.Proofs.View.Accepted
import PlotGrammar.Proofs.View.RoundTrip

/-! # Views rewritten

  A text that is accepted is written again as the text of the same view, in
  one spelling out of many. With a faithful and bounded codec that text is
  accepted in turn, unless it nests too deeply (`read_write_of_read`).

  Writing a view again never nests deeper than the text it was read from, with
  one exception: a grid without a column count may be read from its name but
  is written as an object. Its node has to leave room for that object
  (`View.depth_toJson_le_iff_of_ofJson?`).
-/

namespace PlotGrammar

/-! ### The nesting of what is written -/

theorem depth_presentParts_le_iff {parts : List (String × Option Json)} {n : Nat} :
    (Json.obj (presentParts parts)).depth ≤ n + 1 ↔
      ∀ part ∈ parts, ∀ value ∈ part.2, value.depth ≤ n := by
  rw [Json.depth, Nat.succ_le_succ_iff, Json.depthOfMembers_le_iff]
  constructor
  · intro h part hpart value hvalue
    refine h (part.1, value) (List.mem_flatMap.2 ⟨part, hpart, ?_⟩)
    rw [Option.mem_def.1 hvalue]
    exact List.mem_singleton_self _
  · intro h member hmember
    obtain ⟨part, hpart, hmember⟩ := List.mem_flatMap.1 hmember
    cases hvalue : part.2 with
    | none =>
      rw [hvalue] at hmember
      cases hmember
    | some value =>
      rw [hvalue, optionalMember_some, List.mem_singleton] at hmember
      rw [hmember]
      exact h part hpart value hvalue

theorem depth_ofFloat (x : Float) : (Json.ofFloat x).depth = 0 := rfl

namespace Definition

theorem depth_toJson_field (name : String) (type : Option FieldType) :
    (field name type).toJson.depth = 1 := by
  cases type with
  | none => rfl
  | some type => rfl

theorem depth_toJson_literal (cell : Cell) : (literal cell).toJson.depth = 0 := by
  cases cell with
  | num x => exact depth_ofFloat x
  | _ => rfl

/-- A definition is written no deeper than it was read. -/
theorem depth_toJson_le {value : Json} {d : Definition} (h : ofJson? value = some d) :
    d.toJson.depth ≤ value.depth := by
  rcases cases_of_ofJson? h with ⟨name, type, rfl, hpos⟩ | ⟨cell, rfl, -⟩
  · rw [depth_toJson_field]
    exact hpos
  · rw [depth_toJson_literal]
    exact Nat.zero_le _

end Definition

namespace Layout

theorem depth_toJson_le_one (layout : Layout) : layout.toJson.depth ≤ 1 := by
  rcases layout.toJson_eq with hjson | ⟨-, hjson⟩
  · rw [hjson, depth_presentParts_le_iff]
    simp [parts, Json.depth, depth_ofFloat]
  · rw [hjson]
    exact Nat.zero_le _

/-- A layout is written no deeper than it was read, or it is a grid without a
    column count and is written as an object. -/
theorem depth_toJson_le_iff {value : Json} {layout : Layout} (h : ofJson? value = some layout)
    {n : Nat} (hn : value.depth ≤ n) :
    layout.toJson.depth ≤ n ↔ (layout = ⟨.wrap, none⟩ → 1 ≤ n) := by
  have hone := layout.depth_toJson_le_one
  by_cases hpos : 1 ≤ n
  · exact iff_of_true (Nat.le_trans hone hpos) fun _ => hpos
  · obtain ⟨kind, columns⟩ := layout
    have hnone : columns = none := by
      rcases cases_of_ofJson? h with hnone | ⟨hvalue, -⟩
      · exact hnone
      · omega
    obtain rfl : n = 0 := by omega
    rw [hnone]
    cases kind <;> simp [toJson, Json.depth]

end Layout

namespace Encoding

theorem depth_toJson_le_succ_iff {e : Encoding} {n : Nat} :
    e.toJson.depth ≤ n + 1 ↔ (∀ c d, e.get? c = some d → d.toJson.depth ≤ n) ∧
      ∀ layout, e.layout = some layout → layout.toJson.depth ≤ n := by
  have hslots : (∀ c ∈ Channel.all, ∀ value ∈ (e.get? c).map Definition.toJson, value.depth ≤ n) ↔
      ∀ c d, e.get? c = some d → d.toJson.depth ≤ n := by
    simp [Channel.mem_all]
  have hcontrols : (∀ part ∈ [("coordinates", e.coordinates.map Coordinates.toJson),
      ("layout", e.layout.map Layout.toJson)], ∀ value ∈ part.2, value.depth ≤ n) ↔
        ∀ layout, e.layout = some layout → layout.toJson.depth ≤ n := by
    simp [Coordinates.toJson, Json.depth]
  rw [toJson_eq, depth_presentParts_le_iff, parts, List.forall_mem_append, List.forall_mem_map,
    hslots, hcontrols]

theorem depth_toJson_pos (e : Encoding) : 0 < e.toJson.depth := by
  rw [toJson_eq]
  exact Nat.succ_pos _

/-- An encoding is written no deeper than it was read, but for its layout. -/
theorem depth_toJson_le_iff {value : Json} {e : Encoding} (h : ofJson? value = some e) {n : Nat}
    (hn : value.depth ≤ n) :
    e.toJson.depth ≤ n ↔ (e.layout = some ⟨.wrap, none⟩ → 2 ≤ n) := by
  obtain ⟨hpos, hslots, hlayout⟩ := exists_of_ofJson? h
  obtain ⟨n, rfl⟩ : ∃ fewer, n = fewer + 1 := ⟨n - 1, by omega⟩
  rw [depth_toJson_le_succ_iff]
  constructor
  · intro ⟨_, hwritten⟩ hgrid
    obtain ⟨part, hpart, hread⟩ := hlayout _ hgrid
    have hdepth := hpart.depth_lt
    have hroom := (Layout.depth_toJson_le_iff hread (by omega)).1 (hwritten _ hgrid) rfl
    omega
  · intro hroom
    constructor
    · intro c d hd
      obtain ⟨part, hpart, hread⟩ := hslots c d hd
      have hdepth := hpart.depth_lt
      have hle := Definition.depth_toJson_le hread
      omega
    · intro layout hl
      obtain ⟨part, hpart, hread⟩ := hlayout layout hl
      have hdepth := hpart.depth_lt
      refine (Layout.depth_toJson_le_iff hread (by omega)).2 ?_
      rintro rfl
      have hle := hroom hl
      omega

end Encoding

/-- A step is an object of scalars. -/
theorem Step.depth_toJson (step : Step) : step.toJson.depth = 1 := by
  have hone : step.toJson.depth ≤ 0 + 1 := by
    cases step with
    | bin step =>
      rw [toJson, BinStep.toJson_eq, depth_presentParts_le_iff]
      simp [BinStep.parts, Json.depth, depth_ofFloat, countJson, Json.ofNat]
    | aggregate step =>
      rw [toJson, AggregateStep.toJson_eq, depth_presentParts_le_iff]
      simp [AggregateStep.parts, Json.depth]
  have hpos : 0 < step.toJson.depth := by
    cases step with
    | bin step => exact Nat.succ_pos _
    | aggregate step => exact Nat.succ_pos _
  omega

theorem ViewHead.depth_toJson_le_iff {head : ViewHead} {body : Json} {n : Nat} :
    (head.toJson body).depth ≤ n + 1 ↔
      (head.steps ≠ [] → 2 ≤ n) ∧ body.depth ≤ n ∧ head.encoding.toJson.depth ≤ n := by
  have hsteps : (∀ value ∈ (if head.steps.isEmpty then none else
      some (Json.arr (head.steps.map Step.toJson))), value.depth ≤ n) ↔
        (head.steps ≠ [] → 2 ≤ n) := by
    cases hnil : head.steps with
    | nil => simp
    | cons step steps =>
      have hinner : Json.depthOfItems ((step :: steps).map Step.toJson) = 1 := by
        apply Nat.le_antisymm
        · rw [Json.depthOfItems_le_iff, List.forall_mem_map]
          exact fun step _ => Nat.le_of_eq step.depth_toJson
        · rw [List.map_cons, Json.depthOfItems, step.depth_toJson]
          exact Nat.le_max_left 1 _
      have hdepth : (Json.arr ((step :: steps).map Step.toJson)).depth = 2 := by
        rw [Json.depth, hinner]
      rw [List.isEmpty_cons, if_neg Bool.false_ne_true]
      simp only [Option.mem_some_iff, forall_eq', hdepth]
      exact ⟨fun h _ => h, fun h => h (List.cons_ne_nil _ _)⟩
  rw [toJson_eq, depth_presentParts_le_iff, parts]
  simp only [List.forall_mem_cons, hsteps]
  simp

namespace View

theorem depth_toJsons_le_iff {views : List View} {n : Nat} :
    (Json.arr (toJsons views)).depth ≤ n + 1 ↔ ∀ v ∈ views, v.toJson.depth ≤ n := by
  rw [Json.depth, Nat.succ_le_succ_iff, Json.depthOfItems_le_iff, toJsons_eq_map,
    List.forall_mem_map]

/-- A node holds its encoding, which is an object. -/
theorem two_le_depth_toJson (v : View) : 2 ≤ v.toJson.depth := by
  obtain ⟨head, body, hjson⟩ := exists_toJson_eq v
  rw [hjson]
  by_contra hlt
  have hone : (head.toJson body).depth ≤ 0 + 1 := by omega
  have hencoding := (ViewHead.depth_toJson_le_iff.1 hone).2.2
  exact absurd head.encoding.depth_toJson_pos (Nat.not_lt.2 hencoding)

/-- The nesting of what is written, node by node. -/
theorem depth_toJson_le_iff {v : View} {n : Nat} :
    v.toJson.depth ≤ n ↔ (v.head.steps ≠ [] → 3 ≤ n) ∧ v.head.encoding.toJson.depth + 1 ≤ n ∧
      ∀ child ∈ v.children, child.toJson.depth + v.nesting ≤ n := by
  have hencoding := v.head.encoding.depth_toJson_pos
  by_cases hn : n < 2
  · have htwo := v.two_le_depth_toJson
    apply iff_of_false
    · omega
    · intro ⟨_, hroom, _⟩
      omega
  · obtain ⟨n, rfl⟩ : ∃ fewer, n = fewer + 2 := ⟨n - 2, by omega⟩
    cases v with
    | mark head kind =>
      rw [toJson, ViewHead.depth_toJson_le_iff]
      simp [children, View.head, Json.depth]
    | nested head child =>
      rw [toJson, ViewHead.depth_toJson_le_iff, and_comm (a := child.toJson.depth ≤ n + 1)]
      simp [children, View.head, nesting]
    | concat head views =>
      rw [toJson, ViewHead.depth_toJson_le_iff, depth_toJsons_le_iff, and_comm (b := _ ≤ n + 1)]
      simp [children, View.head, nesting]

/-! ### Grids without a column count -/

/-- The level of a node: how many arrays and objects stand around what it
    holds, its own among them. -/
def level (v : View) : List Nat → Nat
  | [] => 1
  | index :: rest =>
    match v.children[index]? with
    | some child => v.nesting + child.level rest
    | none => 0

/-- Every grid without a column count leaves room for its object, which stands
    in the encoding of its node. -/
def GridsWithin (n : Nat) (v : View) : Prop :=
  ∀ path w, v.at? path = some w → w.head.encoding.layout = some ⟨.wrap, none⟩ →
    v.level path + 2 ≤ n

theorem level_cons {v child : View} {index : Nat} {rest : List Nat}
    (hchild : v.children[index]? = some child) :
    v.level (index :: rest) = v.nesting + child.level rest := by
  rw [level, hchild]

/-- It is enough to look at the root and at the views below it. -/
theorem gridsWithin_iff {v : View} {n : Nat} :
    v.GridsWithin n ↔ (v.head.encoding.layout = some ⟨.wrap, none⟩ → 3 ≤ n) ∧
      ∀ child ∈ v.children, ∀ path w, child.at? path = some w →
        w.head.encoding.layout = some ⟨.wrap, none⟩ → v.nesting + child.level path + 2 ≤ n := by
  constructor
  · intro h
    refine ⟨h [] v rfl, ?_⟩
    intro child hmem path w hat hgrid
    obtain ⟨index, hindex⟩ := List.mem_iff_getElem?.1 hmem
    rw [← level_cons hindex]
    refine h (index :: path) w ?_ hgrid
    rw [at?, hindex, Option.bind_some, hat]
  · rintro ⟨hown, hchildren⟩ path w hat hgrid
    rcases at?_cases hat with ⟨rfl, rfl⟩ | ⟨index, rest, child, rfl, hchild, hat⟩
    · exact hown hgrid
    · rw [level_cons hchild]
      exact hchildren child (List.mem_of_getElem? hchild) rest w hat hgrid

/-- What is written of a view nests as deep as what it was read from allows, if
    its grids without a column count leave room, and only then. -/
theorem depth_toJson_le_iff_of_ofJson? {v : View} {levels : Nat} {value : Json}
    (h : ofJson? levels value = some v) {n : Nat} (hn : value.depth ≤ n) :
    v.toJson.depth ≤ n ↔ v.GridsWithin n := by
  induction v using induction_children generalizing levels value n with
  | step v ih =>
    obtain ⟨fewer, body, hhead, hread⟩ := exists_of_ofJson? h
    obtain ⟨-, ⟨part, hpart, hencoding⟩, hsteps⟩ := exists_of_headAndBody? hhead
    have hsteps : v.head.steps ≠ [] → 3 ≤ n := by
      intro hne
      obtain ⟨step, hstep⟩ := List.exists_mem_of_ne_nil _ hne
      obtain ⟨stepsPart, item, hstepsPart, hitem, hread⟩ := hsteps step hstep
      have hlt := hstepsPart.depth_lt
      have hlt' := hitem.depth_lt
      have hpos := Step.depth_pos_of_ofJson? hread
      omega
    have hencoding : v.head.encoding.toJson.depth + 1 ≤ n ↔
        (v.head.encoding.layout = some ⟨.wrap, none⟩ → 3 ≤ n) := by
      have hlt := hpart.depth_lt
      obtain ⟨n, rfl⟩ : ∃ fewer, n = fewer + 1 := ⟨n - 1, by omega⟩
      rw [Nat.succ_le_succ_iff, Encoding.depth_toJson_le_iff hencoding (by omega)]
      simp only [Nat.reduceLeDiff]
    have hchildren : ∀ child ∈ v.children, (child.toJson.depth + v.nesting ≤ n ↔
        ∀ path w, child.at? path = some w → w.head.encoding.layout = some ⟨.wrap, none⟩ →
          v.nesting + child.level path + 2 ≤ n) := by
      intro child hmem
      obtain ⟨item, hitem, hdepth, -⟩ := hread child hmem
      obtain ⟨room, rfl⟩ : ∃ room, n = room + v.nesting := ⟨n - v.nesting, by omega⟩
      rw [Nat.add_le_add_iff_right, ih child hmem hitem (by omega), GridsWithin]
      refine forall₂_congr fun path w => forall₂_congr fun _ _ => ?_
      omega
    rw [depth_toJson_le_iff, gridsWithin_iff, hencoding]
    constructor
    · intro ⟨_, hown, hbelow⟩
      exact ⟨hown, fun child hmem => (hchildren child hmem).1 (hbelow child hmem)⟩
    · intro ⟨hown, hbelow⟩
      exact ⟨hsteps, hown, fun child hmem => (hchildren child hmem).2 (hbelow child hmem)⟩

/-! ### A grid that is written too deep -/

/-- A bar in a grid without a column count, inside so many single views. -/
def gridInside : Nat → View
  | 0 => .mark { encoding := { layout := some ⟨.wrap, none⟩ } } .bar
  | n + 1 => .nested {} (gridInside n)

/-- The same with the grid written as its name. -/
def gridInsideJson : Nat → Json
  | 0 => .obj [("view", .str "bar"), ("encoding", .obj [("layout", .str "wrap")])]
  | n + 1 => .obj [("view", gridInsideJson n), ("encoding", .obj [])]

theorem depth_gridInsideJson (n : Nat) : (gridInsideJson n).depth = n + 2 := by
  induction n with
  | zero => rfl
  | succ n ih =>
    rw [gridInsideJson, Json.depth, Json.depthOfMembers, ih]
    simp [Json.depthOfMembers, Json.depth]

theorem isWritable_gridInsideJson (n : Nat) : (gridInsideJson n).IsWritable := by
  induction n with
  | zero =>
    have hencoding : (Json.obj [("layout", .str "wrap")]).IsWritable :=
      .obj (List.forall_mem_singleton.2 (.str "wrap"))
    exact .obj (List.forall_mem_cons.2 ⟨.str "bar", List.forall_mem_singleton.2 hencoding⟩)
  | succ n ih =>
    have hencoding : (Json.obj []).IsWritable := .obj (List.forall_mem_nil _)
    exact .obj (List.forall_mem_cons.2 ⟨ih, List.forall_mem_singleton.2 hencoding⟩)

theorem ofJson?_gridInsideJson {n levels : Nat} (h : n < levels) :
    ofJson? levels (gridInsideJson n) = some (gridInside n) := by
  induction n generalizing levels with
  | zero =>
    obtain ⟨levels, rfl⟩ := Nat.exists_eq_succ_of_ne_zero (Nat.ne_zero_of_lt h)
    rfl
  | succ n ih =>
    obtain ⟨levels, rfl⟩ := Nat.exists_eq_succ_of_ne_zero (Nat.ne_zero_of_lt h)
    have hhead : headAndBody? (gridInsideJson (n + 1)) = some ({}, gridInsideJson n) := rfl
    have hname : name? (gridInsideJson n) = none := by
      cases n with
      | zero => rfl
      | succ n => simp [gridInsideJson, name?]
    have hchild := ih (Nat.lt_of_succ_lt_succ h)
    rw [ofJson?, hhead]
    simp [ofBody?, MarkKind.ofJson?, hname, hchild, gridInside]

theorem checkAt_gridInside (n : Nat) (path : NodePath) : (gridInside n).checkAt path = .ok () := by
  induction n generalizing path with
  | zero => rfl
  | succ n ih => exact ih (path.child 0)

/-! ### Accepted texts -/

variable {codec : Json.Codec}

/-- A view is read from a value that a text has, and is valid. -/
theorem read_eq_ok_iff {text : String} {v : View} :
    read codec text = .ok v ↔
      (∃ value, codec.read? text = some value ∧ fromJson? value = some v) ∧
        v.validate = .ok () := by
  rw [← Option.bind_eq_some_iff, read]
  cases (codec.read? text).bind fromJson? with
  | none => simp
  | some w =>
    show (w.validate >>= fun _ => .ok w) = .ok v ↔ _
    rw [bind_eq_ok_iff, Option.some.injEq]
    constructor
    · rintro ⟨_, hvalid, heq⟩
      obtain rfl : w = v := Except.ok.inj heq
      exact ⟨rfl, hvalid⟩
    · rintro ⟨heq, hvalid⟩
      rw [heq]
      exact ⟨(), hvalid, rfl⟩

/-- The text is accepted as long as its encodings stand at level 127 at most. -/
theorem read_gridInsideJson (hcodec : codec.IsFaithful) {n : Nat} (h : n ≤ 125) :
    read codec (codec.write (gridInsideJson n)) = .ok (gridInside n) := by
  have hdepth := depth_gridInsideJson n
  have hlimit : (gridInsideJson n).depth < Json.nestingLimit := by
    rw [hdepth]
    exact Nat.lt_succ_of_le (Nat.succ_le_succ (Nat.succ_le_succ h))
  refine read_eq_ok_iff.2 ⟨⟨gridInsideJson n, ?_, ?_⟩, checkAt_gridInside n .root⟩
  · exact hcodec.read?_write _ (isWritable_gridInsideJson n) hlimit
  · exact ofJson?_gridInsideJson (by omega)

theorem at?_gridInside (n : Nat) : (gridInside n).at? (List.replicate n 0) = some (gridInside 0) := by
  induction n with
  | zero => rfl
  | succ n ih => exact ih

theorem level_gridInside (n : Nat) : (gridInside n).level (List.replicate n 0) = n + 1 := by
  induction n with
  | zero => rfl
  | succ n ih =>
    have hchild : (gridInside (n + 1)).children[0]? = some (gridInside n) := rfl
    rw [List.replicate_succ, level_cons hchild, ih, gridInside, nesting]
    omega

/-- A view of which nothing is lost is read back if it is valid and its text
    does not nest too deeply. -/
theorem exists_read_write_iff (hcodec : codec.IsFaithful) {v : View} (hkept : v.written = v) :
    (∃ w, read codec (v.write codec) = .ok w ∧ (w == v) = true) ↔
      v.validate = .ok () ∧ v.toJson.depth < Json.nestingLimit := by
  rw [read_write hcodec, hkept]
  constructor
  · intro ⟨w, hread, _⟩
    split at hread
    · next hdepth =>
      obtain ⟨_, hvalid, -⟩ := bind_eq_ok_iff.1 hread
      exact ⟨hvalid, hdepth⟩
    · cases hread
  · intro ⟨hvalid, hdepth⟩
    have heq := written_beq_self.2 hkept
    rw [hkept] at heq
    rw [if_pos hdepth, hvalid]
    exact ⟨v, rfl, heq⟩

/-- A view that was read of a text is written as a text of which an equal view
    is read, if every node whose layout is a grid without a column count stands
    at most at level 125, and only then. Otherwise the object of such a grid is
    one too many, and the text is refused as one that is no view at all. -/
theorem read_write_of_read (hcodec : codec.IsFaithful) (hbounded : codec.IsBounded)
    {text : String} {v : View} (h : read codec text = .ok v) :
    ((∃ w, read codec (v.write codec) = .ok w ∧ (w == v) = true) ↔
      ∀ path w, v.at? path = some w → w.head.encoding.layout = some ⟨.wrap, none⟩ →
        v.level path ≤ 125) ∧
    ((¬ ∃ w, read codec (v.write codec) = .ok w ∧ (w == v) = true) →
      read codec (v.write codec) = .error (.invalidSpec .root .unreadable)) := by
  obtain ⟨⟨value, hvalue, hview⟩, hvalid⟩ := read_eq_ok_iff.1 h
  have hfinite := isFinite_of_ofJson? hview (hbounded.isWritable text value hvalue)
  -- What was read leaves room for what is written, except for the object of a grid.
  have hshallow : value.depth ≤ 127 := Nat.le_of_lt_succ (hbounded.depth_lt text value hvalue)
  have hdepth : v.toJson.depth ≤ 127 ↔ v.GridsWithin 127 :=
    depth_toJson_le_iff_of_ofJson? hview hshallow
  have hgrids : v.GridsWithin 127 ↔ ∀ path w, v.at? path = some w →
      w.head.encoding.layout = some ⟨.wrap, none⟩ → v.level path ≤ 125 := by
    simp only [GridsWithin, Nat.reduceLeDiff]
  have hback := exists_read_write_iff hcodec (written_eq_self hvalid hfinite)
  constructor
  · rw [hback, ← hgrids, and_iff_right hvalid, ← hdepth]
    exact Nat.lt_succ_iff
  · intro hlost
    have hdeep : ¬ v.toJson.depth < Json.nestingLimit := fun hlt => hlost (hback.2 ⟨hvalid, hlt⟩)
    rw [read_write hcodec, if_neg hdeep]

/-- A bar in a grid, each part in its longer spelling: the view as an array, and
    the names as objects. -/
def gridInArray : Json :=
  .arr [.arr [], .obj [("bar", .null)], .obj [("layout", .obj [("wrap", .null)])]]

/-- It is written in its short spelling and accepted again. -/
theorem read_write_of_read_of_array :
    ∃ w, read .compact gridInArray.text = .ok (gridInside 0) ∧
      read .compact ((gridInside 0).write .compact) = .ok w ∧ (w == gridInside 0) = true := by
  have hfaithful := Json.Codec.isFaithful_compact
  have hname : ∀ name, (Json.obj [(name, .null)]).IsWritable := fun name =>
    .obj (List.forall_mem_singleton.2 .null)
  have hencoding : (Json.obj [("layout", .obj [("wrap", .null)])]).IsWritable :=
    .obj (List.forall_mem_singleton.2 (hname "wrap"))
  have hwritable : gridInArray.IsWritable :=
    .arr (List.forall_mem_cons.2 ⟨.arr (List.forall_mem_nil _),
      List.forall_mem_cons.2 ⟨hname "bar", List.forall_mem_singleton.2 hencoding⟩⟩)
  have hread : read .compact gridInArray.text = .ok (gridInside 0) := by
    refine read_eq_ok_iff.2 ⟨⟨gridInArray, ?_, rfl⟩, rfl⟩
    exact hfaithful.read?_write gridInArray hwritable (by decide)
  have hlevel : ∀ path w, (gridInside 0).at? path = some w →
      w.head.encoding.layout = some ⟨.wrap, none⟩ → (gridInside 0).level path ≤ 125 := by
    intro path w hat _
    rcases at?_cases hat with ⟨rfl, -⟩ | ⟨index, rest, child, -, hchild, -⟩
    · exact (by decide : 1 ≤ 125)
    · cases hchild
  obtain ⟨w, hw⟩ := (read_write_of_read hfaithful Json.Codec.isBounded_compact hread).1.2 hlevel
  exact ⟨w, hread, hw⟩

/-- Inside 125 views the grid stands at level 126. Its text is accepted, and
    the text that is written of it is not. -/
theorem not_read_write_gridInside :
    read .compact (gridInsideJson 125).text = .ok (gridInside 125) ∧
      ¬ ∃ w, read .compact ((gridInside 125).write .compact) = .ok w ∧
        (w == gridInside 125) = true := by
  have hfaithful := Json.Codec.isFaithful_compact
  refine ⟨read_gridInsideJson hfaithful (Nat.le_refl 125), ?_⟩
  have hdeep : ¬ (gridInside 125).toJson.depth ≤ 127 := by
    intro hle
    have hview := ofJson?_gridInsideJson (Nat.lt_succ_self 125)
    have hgrids := (depth_toJson_le_iff_of_ofJson? hview
      (Nat.le_of_eq (depth_gridInsideJson 125))).1 hle
    have hlevel := hgrids _ _ (at?_gridInside 125) rfl
    rw [level_gridInside] at hlevel
    exact absurd hlevel (by decide)
  -- So the text is refused before there is any value to read.
  have hlimit : ¬ (gridInside 125).toJson.depth < Json.nestingLimit := fun hlt =>
    hdeep (Nat.le_of_lt_succ hlt)
  rw [read_write hfaithful, if_neg hlimit]
  rintro ⟨w, hread, -⟩
  cases hread

end View

end PlotGrammar
