import PlotGrammar.Proofs.View.Accepted

/-! # Alternatives

  Where a value may be one of several things, its reader takes the first
  alternative that accepts it. The order does not matter, as no two of the
  alternatives accept the same value (`View.unambiguous`), although everything
  with parts may be written as an array and every name as an object.

  - A name that is written as an object holds null only, while the parts of a
    layout or a view cannot all be null (`eq_null_of_name?`).
  - An array of three values may be a bin or an aggregate, but the third of
    them is a number or null in the one and a string in the other
    (`BinStep.not_aggregate`).
  - An array of three views is no single view. Its first view would be the
    array of the steps of the whole and a view at once, so the first of these
    steps would be an array of steps in turn. But an array that is a step
    starts with a string, and a string is no step (`View.not_node_of_items`).
-/

namespace PlotGrammar

/-! ### Choices -/

section

variable {α : Type} {read : Json → Option α} {alternatives : List (Json → Option α)}

/-- The first of some alternatives that accepts a value. -/
def firstOf (alternatives : List (Json → Option α)) (value : Json) : Option α :=
  alternatives.findSome? fun alternative => alternative value

theorem firstOf_nil (value : Json) : firstOf ([] : List (Json → Option α)) value = none := rfl

theorem firstOf_cons (first : Json → Option α) (rest : List (Json → Option α)) (value : Json) :
    firstOf (first :: rest) value = (first value).or (firstOf rest value) := by
  rw [firstOf, List.findSome?_cons]
  cases first value <;> rfl

/-- A reader takes the first of some alternatives, and no value is accepted by
    two of them. -/
structure ExclusiveChoice (read : Json → Option α) (alternatives : List (Json → Option α)) :
    Prop where
  eq_firstOf : ∀ value, read value = firstOf alternatives value
  pairwise : ∀ value, alternatives.Pairwise fun alternative other =>
    alternative value = none ∨ other value = none

/-- An order in which alternatives are tried. -/
structure Order (α : Type) where
  apply : List (Json → Option α) → List (Json → Option α)
  perm : ∀ alternatives, (apply alternatives).Perm alternatives

/-- In whatever order exclusive alternatives are tried, the result is the same. -/
theorem ExclusiveChoice.firstOf_apply (h : ExclusiveChoice read alternatives) (o : Order α) :
    firstOf (o.apply alternatives) = read := by
  funext value
  have hperm := (o.perm alternatives).symm
  have hfirst : firstOf alternatives value = firstOf (o.apply alternatives) value :=
    findSome?_eq_of_perm hperm (h.pairwise value)
  rw [← hfirst, h.eq_firstOf]

/-- What any of exclusive alternatives accepts, the reader accepts as that. -/
theorem ExclusiveChoice.eq_some_of_mem (h : ExclusiveChoice read alternatives)
    {alternative : Json → Option α} (hmem : alternative ∈ alternatives) {value : Json} {a : α}
    (ha : alternative value = some a) : read value = some a := by
  rw [h.eq_firstOf]
  exact findSome?_eq_some_of_mem (h.pairwise value) hmem ha

/-- Two readers exclude each other if what the one accepts the other does not. -/
theorem none_or_none {x y : Option α} (h : ∀ a b, x = some a → y = some b → False) :
    x = none ∨ y = none := by
  cases x with
  | none => exact .inl rfl
  | some a =>
    right
    rw [Option.eq_none_iff_forall_ne_some]
    intro b hb
    exact h a b rfl hb

/-- A choice of two alternatives that exclude each other. -/
theorem ExclusiveChoice.pair {first second : Json → Option α}
    (hread : ∀ value, read value = (first value).or (second value))
    (h : ∀ value a b, first value = some a → second value = some b → False) :
    ExclusiveChoice read [first, second] where
  eq_firstOf value := by
    rw [hread, firstOf_cons, firstOf_cons, firstOf_nil, Option.or_none]
  pairwise value := by
    rw [List.pairwise_pair]
    exact none_or_none (h value)

end

/-! ### Names and parts -/

/-- What is written as a name holds null at most. -/
theorem eq_null_of_name? {value part : Json} {name : String} (h : name? value = some name)
    (hpart : value.Holds part) : part = .null := by
  unfold name? at h
  split at h
  · cases hpart
  · cases hpart with
    | member hmember =>
      rw [List.mem_singleton, Prod.mk.injEq] at hmember
      exact hmember.2
  · cases h

section

variable {names : List String} {ps : List (Option Json)}

/-- An object that has parts has no other members. -/
theorem mem_of_parts?_obj {members : List (String × Json)} (h : parts? names (.obj members) = some ps)
    {key : String} {part : Json} (hmember : (key, part) ∈ members) : key ∈ names := by
  unfold parts? at h
  dsimp only at h
  split at h
  · next hkeys =>
    rw [Bool.and_eq_true, List.all_eq_true] at hkeys
    have hkey := hkeys.1 key (List.mem_map_of_mem hmember)
    rwa [List.contains_iff_mem] at hkey
  · cases h

/-- The parts of an object are its members. -/
theorem eq_of_parts?_obj {members : List (String × Json)} (h : parts? names (.obj members) = some ps) :
    ps = names.map fun name => members.lookup name := by
  unfold parts? at h
  dsimp only at h
  split at h
  · exact (Option.some.inj h).symm
  · cases h

/-- The parts of an array are its items in their order. -/
theorem getElem?_of_parts?_arr {items : List Json} (h : parts? names (.arr items) = some ps) {i : Nat}
    (hi : i < names.length) : ps[i]? = some items[i]? := by
  unfold parts? at h
  dsimp only at h
  split at h
  · next hlength =>
    rw [← Option.some.inj h, List.getElem?_append, List.length_map]
    by_cases hitem : i < items.length
    · rw [if_pos hitem, List.getElem?_map, List.getElem?_eq_getElem hitem, Option.map_some]
    · have hmissing : i - items.length < names.length - items.length := by omega
      have hnone : items[i]? = none := List.getElem?_eq_none (by omega)
      rw [if_neg hitem, List.getElem?_replicate_of_lt hmissing, hnone]
  · cases h

end

/-! ### Layouts and definitions -/

namespace Layout

/-- A layout is written as a name or with its parts. -/
def alternatives : List (Json → Option Layout) := [ofNameJson?, ofPartsJson?]

theorem exclusive : ExclusiveChoice ofJson? alternatives := by
  apply ExclusiveChoice.pair (fun _ => rfl)
  intro value layout other hname hparts
  obtain ⟨name, hname, -⟩ := Option.bind_eq_some_iff.1 hname
  obtain ⟨kind, columns, kindName, hps, hkindName, -⟩ := exists_of_ofPartsJson? hparts
  have hkind : value.Holds kind := holds_of_parts? hps (by simp)
  rw [eq_null_of_name? hname hkind] at hkindName
  cases hkindName

end Layout

namespace Definition

/-- A definition refers to a field or is a constant. -/
def alternatives : List (Json → Option Definition) := [ofFieldJson?, ofLiteralJson?]

/-- A constant is a scalar. -/
theorem depth_of_ofLiteralJson? {value : Json} {d : Definition}
    (h : ofLiteralJson? value = some d) : value.depth = 0 := by
  obtain ⟨cell, hcell, -⟩ := Option.map_eq_some_iff.1 h
  cases value with
  | arr items => cases hcell
  | obj members => cases hcell
  | _ => rfl

theorem exclusive : ExclusiveChoice ofJson? alternatives := by
  apply ExclusiveChoice.pair (fun _ => rfl)
  intro value d other hfield hliteral
  obtain ⟨ps, hps, -⟩ := Option.bind_eq_some_iff.1 hfield
  have hpos := depth_pos_of_parts? hps
  have hscalar := depth_of_ofLiteralJson? hliteral
  omega

end Definition

/-! ### Steps -/

/-- No value is a bin and an aggregate. -/
theorem BinStep.not_aggregate {value : Json} {bin : BinStep} {aggregate : AggregateStep}
    (hbin : ofJson? value = some bin) : AggregateStep.ofJson? value ≠ some aggregate := by
  intro haggregate
  obtain ⟨width, maxBins, hbinParts, hwidth⟩ := exists_of_ofJson? hbin
  obtain ⟨field, haggregateParts⟩ := AggregateStep.exists_of_ofJson? haggregate
  cases value with
  | obj members =>
    -- The key of the field to bin is none of an aggregate.
    have hlookup := eq_of_parts?_obj hbinParts
    rw [List.map_cons, List.cons.injEq] at hlookup
    have hmember : ("bin", Json.str bin.field) ∈ members := mem_of_lookup hlookup.1.symm
    have hkey := mem_of_parts?_obj haggregateParts hmember
    revert hkey
    decide
  | arr items =>
    -- The third item would be a width and the name of an output.
    have hthird := getElem?_of_parts?_arr hbinParts (i := 2) (by decide)
    have hthird' := getElem?_of_parts?_arr haggregateParts (i := 2) (by decide)
    have heq : width = some (.str aggregate.out) := Option.some.inj (hthird.trans hthird'.symm)
    rw [heq] at hwidth
    cases hwidth
  | _ => cases hbinParts

namespace Step

/-- A step is a bin or an aggregate. -/
def alternatives : List (Json → Option Step) :=
  [fun value => (BinStep.ofJson? value).map bin,
    fun value => (AggregateStep.ofJson? value).map aggregate]

theorem exclusive : ExclusiveChoice ofJson? alternatives := by
  apply ExclusiveChoice.pair (fun _ => rfl)
  intro value step other hbin haggregate
  obtain ⟨bin, hbin, -⟩ := Option.map_eq_some_iff.1 hbin
  obtain ⟨aggregate, haggregate, -⟩ := Option.map_eq_some_iff.1 haggregate
  exact BinStep.not_aggregate hbin haggregate

/-- A step that is an array starts with a string. -/
theorem exists_str_of_ofJson? {items : List Json} {step : Step}
    (h : ofJson? (.arr items) = some step) : ∃ name, items[0]? = some (.str name) := by
  unfold ofJson? at h
  rcases Option.or_eq_some_iff.1 h with hbin | ⟨-, haggregate⟩
  · obtain ⟨bin, hbin, -⟩ := Option.map_eq_some_iff.1 hbin
    obtain ⟨width, maxBins, hparts, -⟩ := BinStep.exists_of_ofJson? hbin
    have hfirst := getElem?_of_parts?_arr hparts (i := 0) (by decide)
    exact ⟨bin.field, (Option.some.inj hfirst).symm⟩
  · obtain ⟨aggregate, haggregate, -⟩ := Option.map_eq_some_iff.1 haggregate
    obtain ⟨field, hparts⟩ := AggregateStep.exists_of_ofJson? haggregate
    have hfirst := getElem?_of_parts?_arr hparts (i := 0) (by decide)
    exact ⟨aggregate.function, (Option.some.inj hfirst).symm⟩

end Step

/-! ### Bodies -/

namespace View

/-- The first value of a view that is an array is the array of its steps. -/
theorem exists_steps_of_headAndBody? {items : List Json} {node : ViewHead × Json}
    (h : headAndBody? (.arr items) = some node) :
    ∃ steps, items[0]? = some (.arr steps) ∧
      ∀ item ∈ steps, ∃ step, Step.ofJson? item = some step := by
  obtain ⟨stepsPart, encodingPart, hps, hsteps, -⟩ := parts_of_headAndBody? h
  have hfirst := Option.some.inj (getElem?_of_parts?_arr hps (i := 0) (by decide))
  have hsecond := Option.some.inj (getElem?_of_parts?_arr hps (i := 1) (by decide))
  cases items with
  | nil => cases hsecond
  | cons first rest =>
    rw [List.getElem?_cons_zero] at hfirst ⊢
    rw [hfirst] at hsteps
    cases first with
    | arr inner => exact ⟨inner, rfl, fun item hitem => exists_of_mapM_eq_some hsteps hitem⟩
    | _ => cases hsteps

/-- An array of nodes is no node. -/
theorem not_node_of_items {items : List Json}
    (h : ∀ item ∈ items, ∃ node, headAndBody? item = some node) (node : ViewHead × Json) :
    headAndBody? (.arr items) ≠ some node := by
  intro hnode
  -- The first item is the array of the steps of the whole, and a node.
  obtain ⟨steps, hfirst, hsteps⟩ := exists_steps_of_headAndBody? hnode
  obtain ⟨first, hfirst⟩ := h _ (List.mem_of_getElem? hfirst)
  -- So the first of these steps is an array of steps itself.
  obtain ⟨inner, hinner, hinnerSteps⟩ := exists_steps_of_headAndBody? hfirst
  obtain ⟨step, hstep⟩ := hsteps _ (List.mem_of_getElem? hinner)
  -- It starts with a string as a step, and with a step as an array of them.
  obtain ⟨name, hname⟩ := Step.exists_str_of_ofJson? hstep
  obtain ⟨innerStep, hinnerStep⟩ := hinnerSteps _ (List.mem_of_getElem? hname)
  have hpos := Step.depth_pos_of_ofJson? hinnerStep
  exact absurd hpos (Nat.lt_irrefl 0)

/-- The array of views that a body may be. -/
def ofItems? (child? : Json → Option View) (head : ViewHead) : Json → Option View
  | .arr items => (items.mapM child?).map (concat head)
  | _ => none

/-- A body is a mark, a single view or an array of views. -/
def bodyAlternatives (child? : Json → Option View) (head : ViewHead) : List (Json → Option View) :=
  [fun body => (MarkKind.ofJson? body).map (mark head),
    fun body => (child? body).map (nested head), ofItems? child? head]

/-- What a mark is written as is no node. -/
theorem not_node_of_mark {body : Json} {kind : MarkKind} (h : MarkKind.ofJson? body = some kind)
    (node : ViewHead × Json) : headAndBody? body ≠ some node := by
  intro hnode
  obtain ⟨name, hname, -⟩ := Option.bind_eq_some_iff.1 h
  obtain ⟨-, ⟨part, hpart, hencoding⟩, -⟩ := exists_of_headAndBody? hnode
  have hdepth := (Encoding.exists_of_ofJson? hencoding).1
  rw [eq_null_of_name? hname hpart] at hdepth
  exact absurd hdepth (Nat.lt_irrefl 0)

/-- The alternatives of a body exclude each other if all children are nodes. -/
theorem exclusive_body {child? : Json → Option View}
    (hchild : ∀ value v, child? value = some v → ∃ node, headAndBody? value = some node)
    (head : ViewHead) : ExclusiveChoice (ofBody? child? head) (bodyAlternatives child? head) where
  eq_firstOf body := by
    rw [bodyAlternatives, firstOf_cons, firstOf_cons, firstOf_cons, firstOf_nil, Option.or_none]
    cases body <;> rfl
  pairwise body := by
    rw [bodyAlternatives, List.pairwise_cons, List.pairwise_pair]
    constructor
    · intro other hother
      apply none_or_none
      intro v w hmark hw
      obtain ⟨kind, hkind, -⟩ := Option.map_eq_some_iff.1 hmark
      rw [List.mem_cons, List.mem_singleton] at hother
      rcases hother with hsingle | hitems
      · rw [hsingle] at hw
        obtain ⟨child, hread, -⟩ := Option.map_eq_some_iff.1 hw
        obtain ⟨node, hnode⟩ := hchild body child hread
        exact not_node_of_mark hkind node hnode
      · rw [hitems] at hw
        cases body with
        | arr items => cases hkind
        | _ => cases hw
    · apply none_or_none
      intro v w hsingle hitems
      obtain ⟨child, hread, -⟩ := Option.map_eq_some_iff.1 hsingle
      obtain ⟨node, hnode⟩ := hchild body child hread
      cases body with
      | arr items =>
        obtain ⟨children, hchildren, -⟩ := Option.map_eq_some_iff.1 hitems
        have hnodes : ∀ item ∈ items, ∃ node, headAndBody? item = some node := by
          intro item hitem
          obtain ⟨v, hv⟩ := exists_of_mapM_eq_some hchildren hitem
          exact hchild item v hv
        exact not_node_of_items hnodes node hnode
      | _ => cases hitems

end View

/-! ### Readers in other orders -/

/-- Orders of the alternatives of layouts, definitions, steps and bodies. -/
structure Orders where
  layout : Order Layout
  definition : Order Definition
  step : Order Step
  body : Order View

section

variable (o : Orders)

/-- A layout, with its alternatives in a given order. -/
def Layout.ofJsonIn? : Json → Option Layout := firstOf (o.layout.apply Layout.alternatives)

/-- A definition, with its alternatives in a given order. -/
def Definition.ofJsonIn? : Json → Option Definition :=
  firstOf (o.definition.apply Definition.alternatives)

/-- A step, with its alternatives in a given order. -/
def Step.ofJsonIn? : Json → Option Step := firstOf (o.step.apply Step.alternatives)

/-- An encoding, with the alternatives of its parts in given orders. -/
def Encoding.ofJsonIn? (value : Json) : Option Encoding := do
  match ← parts? Encoding.partNames value with
  | [x, y, z, color, shape, opacity, size, angle, detail, coordinates, layout] =>
    return {
      x := ← optionalPart? (Definition.ofJsonIn? o) x
      y := ← optionalPart? (Definition.ofJsonIn? o) y
      z := ← optionalPart? (Definition.ofJsonIn? o) z
      color := ← optionalPart? (Definition.ofJsonIn? o) color
      shape := ← optionalPart? (Definition.ofJsonIn? o) shape
      opacity := ← optionalPart? (Definition.ofJsonIn? o) opacity
      size := ← optionalPart? (Definition.ofJsonIn? o) size
      angle := ← optionalPart? (Definition.ofJsonIn? o) angle
      detail := ← optionalPart? (Definition.ofJsonIn? o) detail
      coordinates := ← optionalPart? Coordinates.ofJson? coordinates
      layout := ← optionalPart? (Layout.ofJsonIn? o) layout }
  | _ => none

/-- The steps of a node, with the alternatives of each in a given order. -/
def stepsIn? : Option Json → Option (List Step)
  | none => some []
  | some (.arr items) => items.mapM (Step.ofJsonIn? o)
  | some _ => none

namespace View

/-- The head of a node and the value of its body, with the alternatives of the
    parts of the head in given orders. -/
def headAndBodyIn? (value : Json) : Option (ViewHead × Json) := do
  match ← parts? partNames value with
  | [steps, some body, some encoding] =>
    return (⟨← stepsIn? o steps, ← Encoding.ofJsonIn? o encoding⟩, body)
  | _ => none

/-- A view, nested at most so many levels deep, with all alternatives in given
    orders. -/
def ofJsonIn? : Nat → Json → Option View
  | 0, _ => none
  | levels + 1, value => do
    let (head, body) ← headAndBodyIn? o value
    firstOf (o.body.apply (bodyAlternatives (ofJsonIn? levels) head)) body

/-- The view of a JSON value, with all alternatives in given orders. -/
def fromJsonIn? (value : Json) : Option View := ofJsonIn? o (value.depth + 1) value

end View

theorem Layout.ofJsonIn?_eq : Layout.ofJsonIn? o = Layout.ofJson? :=
  Layout.exclusive.firstOf_apply o.layout

theorem Definition.ofJsonIn?_eq : Definition.ofJsonIn? o = Definition.ofJson? :=
  Definition.exclusive.firstOf_apply o.definition

theorem Step.ofJsonIn?_eq : Step.ofJsonIn? o = Step.ofJson? :=
  Step.exclusive.firstOf_apply o.step

theorem Encoding.ofJsonIn?_eq : Encoding.ofJsonIn? o = Encoding.ofJson? := by
  funext value
  unfold ofJsonIn?
  rw [Definition.ofJsonIn?_eq, Layout.ofJsonIn?_eq]
  rfl

theorem stepsIn?_eq : stepsIn? o = steps? := by
  funext part
  unfold stepsIn?
  rw [Step.ofJsonIn?_eq]
  rfl

theorem View.headAndBodyIn?_eq : View.headAndBodyIn? o = View.headAndBody? := by
  funext value
  unfold headAndBodyIn?
  rw [stepsIn?_eq, Encoding.ofJsonIn?_eq]
  rfl

end

namespace View

/-- Only nodes are read as views. -/
theorem exists_node_of_ofJson? {levels : Nat} {value : Json} {v : View}
    (h : ofJson? levels value = some v) : ∃ node, headAndBody? value = some node := by
  obtain ⟨fewer, body, hnode, -⟩ := exists_of_ofJson? h
  exact ⟨(v.head, body), hnode⟩

theorem ofJsonIn?_eq (o : Orders) (levels : Nat) : ofJsonIn? o levels = ofJson? levels := by
  induction levels with
  | zero => rfl
  | succ levels ih =>
    funext value
    have hbody : ∀ head, firstOf (o.body.apply (bodyAlternatives (ofJson? levels) head)) =
        ofBody? (ofJson? levels) head :=
      fun head => (exclusive_body (fun _ _ => exists_node_of_ofJson?) head).firstOf_apply o.body
    rw [ofJsonIn?, ofJson?, headAndBodyIn?_eq, ih]
    simp only [hbody]

/-! ### The grammar of views -/

variable {value body : Json} {head : ViewHead}

/-- Only the values that a body holds, and the body itself, are read as
    children. -/
theorem ofBody?_congr {child? other? : Json → Option View}
    (h : ∀ value, value.depth ≤ body.depth → child? value = other? value) :
    ofBody? child? head body = ofBody? other? head body := by
  unfold ofBody?
  rw [h body (Nat.le_refl _)]
  cases body with
  | arr items =>
    have hitems : items.mapM child? = items.mapM other? := by
      apply mapM_eq_mapM
      intro item hitem
      have hinside : (Json.arr items).Holds item := .item hitem
      exact h item (Nat.le_of_lt hinside.depth_lt)
    simp only [hitems]
  | _ => rfl

/-- How deep views may be nested does not matter for values that are not as
    deep. -/
theorem ofJson?_eq_ofJson? {levels other : Nat} (hlevels : value.depth < levels)
    (hother : value.depth < other) : ofJson? levels value = ofJson? other value := by
  induction levels generalizing other value with
  | zero => omega
  | succ levels ih =>
    cases other with
    | zero => omega
    | succ other =>
      rw [ofJson?, ofJson?]
      cases hnode : headAndBody? value with
      | none => rfl
      | some node =>
        have hdepth := (exists_of_headAndBody? hnode).1.depth_lt
        show ofBody? (ofJson? levels) node.1 node.2 = ofBody? (ofJson? other) node.1 node.2
        apply ofBody?_congr
        intro inside hinside
        exact ih (by omega) (by omega)

/-- A value is a view if it is a node whose body is one of a mark, a view and
    an array of views. -/
theorem fromJson?_eq : fromJson? value = (do
    let (head, body) ← headAndBody? value
    ofBody? fromJson? head body) := by
  rw [fromJson?, ofJson?]
  cases hnode : headAndBody? value with
  | none => rfl
  | some node =>
    have hdepth := (exists_of_headAndBody? hnode).1.depth_lt
    show ofBody? (ofJson? value.depth) node.1 node.2 = ofBody? fromJson? node.1 node.2
    apply ofBody?_congr
    intro inside hinside
    exact ofJson?_eq_ofJson? (by omega) (by omega)

theorem exclusive_fromJson? (head : ViewHead) :
    ExclusiveChoice (ofBody? fromJson? head) (bodyAlternatives fromJson? head) :=
  exclusive_body (fun _ _ => exists_node_of_ofJson?) head

/-- A body that is an array of views is read as the array of these views. -/
theorem ofBody?_arr {items : List Json} {views : List View} :
    ofBody? fromJson? head (.arr items) = some (.concat head views) ↔
      List.Forall₂ (fun item v => fromJson? item = some v) items views := by
  constructor
  · intro h
    rcases cases_of_ofBody? h with
      ⟨kind, heq⟩ | ⟨child, heq, -⟩ | ⟨items', children, heq, hitems, hchildren⟩
    · cases heq
    · cases heq
    · cases heq
      cases hitems
      exact hchildren
  · intro h
    have hitems : ofItems? fromJson? head (.arr items) = some (.concat head views) := by
      rw [ofItems?, mapM_eq_some_iff.2 h, Option.map_some]
    exact (exclusive_fromJson? head).eq_some_of_mem (by simp [bodyAlternatives]) hitems

/-- The grammar of views is unambiguous. No two alternatives of a layout, a
    definition, a step or a body accept the same value, so the orders in which
    they are tried do not matter, and an array of views is never anything else. -/
theorem unambiguous :
    ExclusiveChoice Layout.ofJson? Layout.alternatives ∧
      ExclusiveChoice Definition.ofJson? Definition.alternatives ∧
      ExclusiveChoice Step.ofJson? Step.alternatives ∧
      (∀ head, ExclusiveChoice (ofBody? fromJson? head) (bodyAlternatives fromJson? head)) ∧
      (∀ value, fromJson? value = (do
        let (head, body) ← headAndBody? value
        ofBody? fromJson? head body)) ∧
      (∀ (o : Orders) (value : Json), fromJsonIn? o value = fromJson? value) ∧
      ∀ head items views, ofBody? fromJson? head (.arr items) = some (.concat head views) ↔
        List.Forall₂ (fun item v => fromJson? item = some v) items views := by
  refine ⟨Layout.exclusive, Definition.exclusive, Step.exclusive, exclusive_fromJson?,
    fun _ => fromJson?_eq, ?_, fun _ _ _ => ofBody?_arr⟩
  intro o value
  rw [fromJsonIn?, ofJsonIn?_eq]
  rfl

/-- A view may be an array of three values, but an array of three views is none. -/
example :
    let bar : Json := .arr [.arr [], .str "bar", .obj []]
    let bars : Json := .arr [bar, bar, bar]
    (fromJson? bar).map nodeCount = some 1 ∧ (fromJson? bars).isNone ∧
      (fromJson? (.arr [.arr [], bars, .obj []])).map nodeCount = some 4 := by
  decide +kernel

end View

end PlotGrammar
