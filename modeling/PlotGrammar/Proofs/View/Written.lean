import PlotGrammar.Proofs.Lists
import PlotGrammar.Proofs.View.Nodes
import PlotGrammar.Proofs.View.Parts

/-! # What is read of a view that is written

  The text of a view shows everything of it but numbers that are not finite:
  null stands in their place, and null counts as missing, as does a constant
  that is null. `View.written` is the view without these, and
  `fromJson?_shown` says that it is what is read.

  For every part there is a form without what is lost and a lemma that this is
  what its reader makes of what its text shows, from the numbers up to the
  views.
-/

namespace PlotGrammar

/-! ### Numbers and names -/

/-- A number that is not finite is lost. -/
theorem optionalPart?_map_ofFloat (x : Option Float) :
    optionalPart? Json.float? (x.map (Json.shown ∘ Json.ofFloat)) =
      some (x.filter Float.isFinite) := by
  cases x with
  | none => rfl
  | some x =>
    rw [Option.map_some, Function.comp_apply, Json.shown_ofFloat, Option.filter]
    split
    · rfl
    · rfl

theorem optionalPart?_countJson (n : UInt64) :
    optionalPart? count? (some (countJson n).shown) = some (some n) := by
  have hlt : n.toNat < Nat.pow 2 64 := n.toNat_lt
  have hshown : (countJson n).shown = countJson n := rfl
  have hnull : countJson n ≠ .null := by simp [countJson, Json.ofNat]
  rw [hshown, optionalPart?_some _ hnull, countJson, Json.ofNat, count?, Json.nat?, Option.bind_some,
    if_pos hlt, UInt64.ofNat_toNat, Option.map_some]

theorem optionalPart?_str (s : String) :
    optionalPart? Json.str? (some (Json.str s).shown) = some (some s) := rfl

theorem FieldType.optionalPart?_shown (t : FieldType) :
    optionalPart? FieldType.ofJson? (some t.toJson.shown) = some (some t) := by
  cases t <;> rfl

theorem Coordinates.optionalPart?_shown (c : Coordinates) :
    optionalPart? Coordinates.ofJson? (some c.toJson.shown) = some (some c) := by
  cases c <;> rfl

theorem LayoutKind.ofName?_name (kind : LayoutKind) : LayoutKind.ofName? kind.name = some kind := by
  cases kind <;> rfl

theorem MarkKind.ofName?_name (kind : MarkKind) : MarkKind.ofName? kind.name = some kind := by
  cases kind <;> decide

/-! ### Definitions -/

namespace Definition

/-- The definition, unless it is lost. -/
def written : Definition → Option Definition
  | .literal .null => none
  | .literal (.num x) => if x.isFinite then some (.literal (.num x)) else none
  | d => some d

/-- The parts of a definition that refers to a field. -/
def fieldParts (name : String) (type : Option FieldType) : List (String × Option Json) :=
  [("field", some (.str name)), ("type", type.map FieldType.toJson)]

theorem toJson_field (name : String) (type : Option FieldType) :
    (field name type).toJson = .obj (presentParts (fieldParts name type)) := by
  simp [toJson, fieldParts, presentParts]

theorem ofFieldJson?_shown (name : String) (type : Option FieldType) :
    ofFieldJson? (field name type).toJson.shown = some (field name type) := by
  have hparts := parts?_shown ["field", "type"] (fieldParts name type) rfl (by decide)
  have htype := optionalPart?_map FieldType.optionalPart?_shown type
  rw [toJson_field, ofFieldJson?, hparts]
  simp [fieldParts, htype, Json.str?]

/-- What is read of a definition. -/
theorem optionalPart?_shown (d : Definition) :
    optionalPart? ofJson? (some d.toJson.shown) = some d.written := by
  cases d with
  | field name type =>
    have hnull : (field name type).toJson.shown ≠ .null := by simp [toJson, Json.shown]
    rw [optionalPart?_some _ hnull, ofJson?, ofFieldJson?_shown, Option.some_or, Option.map_some]
    rfl
  | literal value =>
    cases value with
    | null => rfl
    | bool value => rfl
    | num x =>
      rw [toJson, Cell.toJson, Json.shown_ofFloat, written]
      split
      · rfl
      · rfl
    | text value => rfl

end Definition

/-! ### Layouts -/

namespace Layout

/-- The layout as it is read again. -/
def written (layout : Layout) : Layout :=
  { layout with columns := layout.columns.filter Float.isFinite }

/-- The parts of a layout. -/
def parts (layout : Layout) : List (String × Option Json) :=
  [("type", some (.str layout.kind.name)), ("columns", layout.columns.map Json.ofFloat)]

/-- A layout is written with its parts, unless its name says it all. -/
theorem toJson_eq (layout : Layout) :
    layout.toJson = .obj (presentParts layout.parts) ∨
      layout.columns = none ∧ layout.toJson = .str layout.kind.name := by
  rw [toJson]
  split
  · exact .inl (by simp [parts, presentParts])
  · next hname =>
    simp only [Bool.or_eq_true, not_or, Option.not_isSome_iff_eq_none] at hname
    exact .inr ⟨hname.2, rfl⟩

/-- What is read of a layout. -/
theorem ofJson?_shown (layout : Layout) : ofJson? layout.toJson.shown = some layout.written := by
  rcases layout.toJson_eq with hjson | ⟨hcolumns, hjson⟩
  · have hparts := parts?_shown ["type", "columns"] layout.parts rfl (by decide)
    have hcolumns := optionalPart?_map_ofFloat layout.columns
    have hname : name? (Json.obj (presentParts layout.parts)).shown = none := rfl
    rw [hjson, ofJson?, ofNameJson?, ofPartsJson?, hparts, hname]
    simp [parts, hcolumns, name?, LayoutKind.ofName?_name, written]
  · rw [hjson, Json.shown_str, ofJson?, ofNameJson?, name?, written, hcolumns]
    simp [LayoutKind.ofName?_name]

theorem optionalPart?_shown (layout : Layout) :
    optionalPart? ofJson? (some layout.toJson.shown) = some (some layout.written) := by
  have hnull : layout.toJson.shown ≠ .null := by
    rw [toJson]
    split
    · exact Json.noConfusion
    · exact Json.noConfusion
  rw [optionalPart?_some _ hnull, ofJson?_shown, Option.map_some]

end Layout

/-! ### Encodings -/

namespace Encoding

/-- The encoding as it is read again. -/
def written (e : Encoding) : Encoding where
  x := e.x.bind Definition.written
  y := e.y.bind Definition.written
  z := e.z.bind Definition.written
  color := e.color.bind Definition.written
  shape := e.shape.bind Definition.written
  opacity := e.opacity.bind Definition.written
  size := e.size.bind Definition.written
  angle := e.angle.bind Definition.written
  detail := e.detail.bind Definition.written
  coordinates := e.coordinates
  layout := e.layout.map Layout.written

/-- The parts of an encoding. -/
def parts (e : Encoding) : List (String × Option Json) :=
  Channel.all.map (fun c => (c.name, (e.get? c).map Definition.toJson)) ++
    [("coordinates", e.coordinates.map Coordinates.toJson), ("layout", e.layout.map Layout.toJson)]

theorem toJson_eq (e : Encoding) : e.toJson = .obj (presentParts e.parts) := by
  simp [toJson, parts, presentParts, List.flatMap_append, List.flatMap_map]

theorem ofJson?_shown (e : Encoding) : ofJson? e.toJson.shown = some e.written := by
  have hparts := parts?_shown partNames e.parts rfl (by decide)
  have hdefinition := optionalPart?_map Definition.optionalPart?_shown
  have hcoordinates := optionalPart?_map Coordinates.optionalPart?_shown e.coordinates
  have hlayout : optionalPart? Layout.ofJson? (e.layout.map (Json.shown ∘ Layout.toJson)) =
      some (e.layout.map Layout.written) := by
    rw [optionalPart?_map Layout.optionalPart?_shown, Option.map_eq_bind]
    rfl
  rw [toJson_eq, ofJson?, hparts]
  simp [parts, Channel.all, get?, hdefinition, hcoordinates, hlayout, written]

end Encoding

/-! ### Steps -/

namespace BinStep

/-- The step as it is read again. -/
def written (step : BinStep) : BinStep :=
  { step with width := step.width.filter Float.isFinite }

/-- The parts of a bin step. -/
def parts (step : BinStep) : List (String × Option Json) :=
  [("bin", some (.str step.field)), ("as", some (.str step.out)),
    ("step", step.width.map Json.ofFloat), ("maxbins", step.maxBins.map countJson)]

theorem toJson_eq (step : BinStep) : step.toJson = .obj (presentParts step.parts) := by
  simp [toJson, parts, presentParts]

theorem ofJson?_shown (step : BinStep) : ofJson? step.toJson.shown = some step.written := by
  have hparts := parts?_shown ["bin", "as", "step", "maxbins"] step.parts rfl (by decide)
  have hwidth := optionalPart?_map_ofFloat step.width
  have hmaxBins := optionalPart?_map optionalPart?_countJson step.maxBins
  rw [toJson_eq, ofJson?, hparts]
  simp [parts, hwidth, hmaxBins, Json.str?, written]

end BinStep

namespace AggregateStep

/-- The parts of an aggregate step. -/
def parts (step : AggregateStep) : List (String × Option Json) :=
  [("aggregate", some (.str step.function)), ("field", step.field.map Json.str),
    ("as", some (.str step.out))]

theorem toJson_eq (step : AggregateStep) : step.toJson = .obj (presentParts step.parts) := by
  simp [toJson, parts, presentParts]

theorem ofJson?_shown (step : AggregateStep) : ofJson? step.toJson.shown = some step := by
  have hparts := parts?_shown ["aggregate", "field", "as"] step.parts rfl (by decide)
  have hfield := optionalPart?_map optionalPart?_str step.field
  rw [toJson_eq, ofJson?, hparts]
  simp [parts, hfield, Json.str?]

/-- An aggregate is not read as a bin step, since no part of one has the name
    of its first part. -/
theorem binOfJson?_shown (step : AggregateStep) : BinStep.ofJson? step.toJson.shown = none := rfl

end AggregateStep

namespace Step

/-- The step as it is read again. -/
def written : Step → Step
  | .bin step => .bin step.written
  | .aggregate step => .aggregate step

theorem ofJson?_shown (step : Step) : ofJson? step.toJson.shown = some step.written := by
  cases step with
  | bin step =>
    rw [toJson, ofJson?, BinStep.ofJson?_shown, Option.map_some, Option.some_or, written]
  | aggregate step =>
    rw [toJson, ofJson?, AggregateStep.binOfJson?_shown, AggregateStep.ofJson?_shown, written]
    rfl

end Step

/-! ### Heads -/

namespace ViewHead

/-- The head as it is read again. -/
def written (head : ViewHead) : ViewHead :=
  ⟨head.steps.map Step.written, head.encoding.written⟩

/-- The parts of a node. -/
def parts (head : ViewHead) (body : Json) : List (String × Option Json) :=
  [("transform",
      if head.steps.isEmpty then none else some (.arr (head.steps.map Step.toJson))),
    ("view", some body), ("encoding", some head.encoding.toJson)]

theorem toJson_eq (head : ViewHead) (body : Json) :
    head.toJson body = .obj (presentParts (head.parts body)) := by
  rw [toJson, parts]
  split <;> rfl

/-- Steps that are left out are read as no steps. -/
theorem steps?_shown (steps : List Step) :
    steps? ((if steps.isEmpty then none else some (.arr (steps.map Step.toJson))).map Json.shown) =
      some (steps.map Step.written) := by
  cases steps with
  | nil => rfl
  | cons step steps =>
    -- Every step is shown by itself.
    show (Json.shownItems ((step :: steps).map Step.toJson)).mapM Step.ofJson? = _
    rw [Json.shownItems_eq_map, List.map_map]
    exact mapM_map_eq_some fun step _ => step.ofJson?_shown

theorem headAndBody?_shown (head : ViewHead) (body : Json) :
    View.headAndBody? (head.toJson body).shown = some (head.written, body.shown) := by
  have hparts := parts?_shown View.partNames (head.parts body) rfl (by decide)
  have hsteps := steps?_shown head.steps
  have hencoding := Encoding.ofJson?_shown head.encoding
  rw [toJson_eq, View.headAndBody?, hparts]
  simp only [parts, List.map_cons, List.map_nil, Option.map_some, Option.bind_eq_bind,
    Option.bind_some, hsteps, hencoding, Option.pure_def, written]

/-- The body of a node nests less deeply than the node. -/
theorem depth_body_lt (head : ViewHead) (body : Json) : body.depth < (head.toJson body).depth := by
  rw [toJson, Json.depth]
  split
  · simp only [List.nil_append, Json.depthOfMembers]
    omega
  · simp only [List.cons_append, List.nil_append, Json.depthOfMembers]
    omega

/-- A node is not a name. -/
theorem name?_shown (head : ViewHead) (body : Json) : name? (head.toJson body).shown = none := by
  rw [toJson]
  split <;> simp [name?, Json.shown, Json.shownMembers]

end ViewHead

/-! ### Views -/

namespace View

mutual

/-- The view as it is read again. -/
def written : View → View
  | .mark head kind => .mark head.written kind
  | .nested head child => .nested head.written child.written
  | .concat head children => .concat head.written (writtens children)

/-- The views as they are read again. -/
def writtens : List View → List View
  | [] => []
  | v :: rest => v.written :: writtens rest

end

theorem writtens_eq_map (views : List View) : writtens views = views.map written := by
  induction views with
  | nil => rfl
  | cons v rest ih => rw [writtens, ih, List.map_cons]

theorem toJsons_eq_map (views : List View) : toJsons views = views.map toJson := by
  induction views with
  | nil => rfl
  | cons v rest ih => rw [toJsons, ih, List.map_cons]

theorem exists_toJson_eq (v : View) : ∃ head body, v.toJson = ViewHead.toJson head body := by
  cases v with
  | mark head kind => exact ⟨_, _, rfl⟩
  | nested head child => exact ⟨_, _, rfl⟩
  | concat head children => exact ⟨_, _, rfl⟩

/-- A list of views is not a single view with its parts in an array: the first
    of them would have to be the steps. -/
theorem headAndBody?_shownItems (children : List View) :
    headAndBody? (.arr (Json.shownItems (toJsons children))) = none := by
  match children with
  | [] => rfl
  | [_] => rfl
  | [_, _] => rfl
  | [child, second, third] =>
    obtain ⟨head, body, hjson⟩ := exists_toJson_eq child
    have hsteps : steps? (some child.toJson.shown) = none := by
      rw [hjson]
      rfl
    simp [headAndBody?, parts?, partNames, toJsons, Json.shownItems, hsteps]
  | _ :: _ :: _ :: _ :: rest => simp [headAndBody?, parts?, partNames, toJsons, Json.shownItems]

theorem depth_lt_of_mem {children : List View} {child : View} (h : child ∈ children) :
    child.toJson.depth < (Json.arr (toJsons children)).depth := by
  rw [Json.depth]
  induction children with
  | nil => cases h
  | cons first rest ih =>
    rw [toJsons, Json.depthOfItems]
    rcases List.mem_cons.1 h with rfl | h
    · omega
    · have hrest := ih h
      omega

/-- With enough levels the view is read without what is lost. -/
theorem ofJson?_shown (v : View) {levels : Nat} (h : v.toJson.depth < levels) :
    ofJson? levels v.toJson.shown = some v.written := by
  induction v generalizing levels with
  | mark head kind =>
    obtain ⟨levels, rfl⟩ := Nat.exists_eq_succ_of_ne_zero (Nat.ne_zero_of_lt h)
    rw [toJson, ofJson?, head.headAndBody?_shown, Json.shown_str]
    simp [ofBody?, MarkKind.ofJson?, name?, MarkKind.ofName?_name, written]
  | nested head child ih =>
    obtain ⟨levels, rfl⟩ := Nat.exists_eq_succ_of_ne_zero (Nat.ne_zero_of_lt h)
    rw [toJson] at h ⊢
    have hdepth := head.depth_body_lt child.toJson
    have hchild : ofJson? levels child.toJson.shown = some child.written := ih (by omega)
    obtain ⟨childHead, childBody, hjson⟩ := exists_toJson_eq child
    -- The object of the child is first tried as the name of a mark.
    have hname : name? child.toJson.shown = none := by rw [hjson, ViewHead.name?_shown]
    rw [ofJson?, head.headAndBody?_shown]
    simp [ofBody?, MarkKind.ofJson?, hname, hchild, written]
  | concat head children ih =>
    obtain ⟨levels, rfl⟩ := Nat.exists_eq_succ_of_ne_zero (Nat.ne_zero_of_lt h)
    rw [toJson] at h ⊢
    have hdepth := head.depth_body_lt (.arr (toJsons children))
    have hchildren : (Json.shownItems (toJsons children)).mapM (ofJson? levels) =
        some (writtens children) := by
      rw [toJsons_eq_map, Json.shownItems_eq_map, List.map_map, writtens_eq_map]
      refine mapM_map_eq_some fun child hmem => ih child hmem ?_
      have hlt := depth_lt_of_mem hmem
      omega
    -- The array is first tried as a single view, and is none.
    have hsingle : ofJson? levels (.arr (Json.shownItems (toJsons children))) = none := by
      cases levels with
      | zero => rfl
      | succ levels => rw [ofJson?, headAndBody?_shownItems]; rfl
    rw [ofJson?, head.headAndBody?_shown, Json.shown]
    simp [ofBody?, MarkKind.ofJson?, name?, hsingle, hchildren, written]

/-- What is read of a view that is written. -/
theorem fromJson?_shown (v : View) : fromJson? v.toJson.shown = some v.written :=
  ofJson?_shown v (by rw [Json.depth_shown]; exact Nat.lt_succ_self _)

end View

end PlotGrammar
