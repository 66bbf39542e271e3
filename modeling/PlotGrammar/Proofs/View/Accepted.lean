import PlotGrammar.Proofs.Json.Readings
import PlotGrammar.Proofs.Results
import PlotGrammar.Proofs.View.Kept

/-! # What the readers of views accept

  Where a part of a view comes from. A JSON value holds the values right inside
  of it (`Json.Holds`), which nest less deeply and can be written if it can. A
  reader that succeeds has read its named parts from values that its own value
  holds, so what a view was read from is found level by level, whatever
  spelling was chosen: objects or arrays of parts, names or objects with a
  name.

  All numbers of a view were read from numbers (`View.isFinite_of_ofJson?`), so
  a view of a text has finite numbers only.
-/

namespace PlotGrammar

/-! ### Values inside of values -/

/-- The second value is an item or the value of a member of the first. -/
inductive Json.Holds : Json → Json → Prop where
  | item {items : List Json} {part : Json} (h : part ∈ items) : Holds (.arr items) part
  | member {members : List (String × Json)} {key : String} {part : Json}
    (h : (key, part) ∈ members) : Holds (.obj members) part

namespace Json.Holds

variable {value part : Json}

theorem depth_lt (h : value.Holds part) : part.depth < value.depth := by
  cases h with
  | item hitem =>
    rw [depth]
    exact Nat.lt_succ_of_le (depthOfItems_le_iff.1 (Nat.le_refl _) part hitem)
  | member hmember =>
    rw [depth]
    exact Nat.lt_succ_of_le (depthOfMembers_le_iff.1 (Nat.le_refl _) _ hmember)

theorem isWritable (h : value.Holds part) (hvalue : value.IsWritable) : part.IsWritable := by
  cases h with
  | item hitem =>
    cases hvalue with
    | arr hitems => exact hitems part hitem
  | member hmember =>
    cases hvalue with
    | obj hmembers => exact hmembers _ hmember

end Json.Holds

section

variable {names : List String} {value : Json} {ps : List (Option Json)}

/-- Parts are read from what a value holds. -/
theorem holds_of_parts? (h : parts? names value = some ps) {part : Json} (hpart : some part ∈ ps) :
    value.Holds part := by
  unfold parts? at h
  split at h
  · next members =>
    dsimp only at h
    split at h
    · cases h
      obtain ⟨name, -, hlookup⟩ := List.mem_map.1 hpart
      exact .member (mem_of_lookup hlookup)
    · cases h
  · next items =>
    split at h
    · cases h
      rcases List.mem_append.1 hpart with hitem | hmissing
      · obtain ⟨item, hitem, heq⟩ := List.mem_map.1 hitem
        rw [← Option.some.inj heq]
        exact .item hitem
      · cases List.eq_of_mem_replicate hmissing
    · cases h
  · cases h

/-- Only arrays and objects have parts. -/
theorem depth_pos_of_parts? (h : parts? names value = some ps) : 0 < value.depth := by
  cases value with
  | arr items => exact Nat.succ_pos _
  | obj members => exact Nat.succ_pos _
  | _ => cases h

/-- An optional part that is there was read from a value. -/
theorem exists_of_optionalPart? {α : Type} {read : Json → Option α} {part : Option Json} {a : α}
    (h : optionalPart? read part = some (some a)) :
    ∃ value, part = some value ∧ read value = some a := by
  unfold optionalPart? at h
  split at h
  · cases h
  · cases h
  · next value hvalue =>
    obtain ⟨b, hb, heq⟩ := Option.map_eq_some_iff.1 h
    cases heq
    exact ⟨value, rfl, hb⟩

end

/-- An optional number is finite if it was read from what can be written. -/
theorem isFinite_of_optionalPart? {value : Json} (hvalue : value.IsWritable) {part : Option Json}
    (hpart : ∀ j ∈ part, value.Holds j) {x : Option Float}
    (h : optionalPart? Json.float? part = some x) : ∀ y ∈ x, y.isFinite = true := by
  rintro y rfl
  obtain ⟨j, rfl, hj⟩ := exists_of_optionalPart? h
  have hwritable := (hpart j rfl).isWritable hvalue
  cases hwritable with
  | num hn =>
    cases hj
    exact hn.isFinite_toFloat
  | _ => cases hj

/-! ### Definitions and layouts -/

namespace Definition

variable {value : Json} {d : Definition}

/-- A definition is read from its parts if it refers to a field, and from a
    scalar if it is a constant. -/
theorem cases_of_ofJson? (h : ofJson? value = some d) :
    (∃ name type, d = .field name type ∧ 0 < value.depth) ∨
      ∃ cell, d = .literal cell ∧ Cell.ofJson? value = some cell := by
  unfold ofJson? at h
  rcases Option.or_eq_some_iff.1 h with hfield | ⟨-, hliteral⟩
  · left
    unfold ofFieldJson? at hfield
    obtain ⟨ps, hps, hfield⟩ := Option.bind_eq_some_iff.1 hfield
    split at hfield
    · obtain ⟨name, -, hfield⟩ := Option.bind_eq_some_iff.1 hfield
      obtain ⟨type, -, hfield⟩ := Option.bind_eq_some_iff.1 hfield
      cases hfield
      exact ⟨name, type, rfl, depth_pos_of_parts? hps⟩
    · cases hfield
  · right
    obtain ⟨cell, hcell, rfl⟩ := Option.map_eq_some_iff.1 hliteral
    exact ⟨cell, rfl, hcell⟩

theorem isFinite_of_ofJson? (h : ofJson? value = some d) (hvalue : value.IsWritable) :
    ∀ x ∈ d.numbers, x.isFinite = true := by
  intro x hx
  rcases cases_of_ofJson? h with ⟨name, type, rfl, -⟩ | ⟨cell, rfl, hcell⟩
  · cases hx
  · cases cell with
    | num y =>
      rw [numbers, List.mem_singleton] at hx
      rw [hx]
      cases hvalue with
      | num hn =>
        cases hcell
        exact hn.isFinite_toFloat
      | _ => cases hcell
    | _ => cases hx

end Definition

namespace Layout

variable {value : Json} {layout : Layout}

/-- The parts of a layout: its name and its column count. -/
theorem exists_of_ofPartsJson? (h : ofPartsJson? value = some layout) :
    ∃ kind columns name, parts? ["type", "columns"] value = some [some kind, columns] ∧
      name? kind = some name ∧ optionalPart? Json.float? columns = some layout.columns := by
  unfold ofPartsJson? at h
  obtain ⟨ps, hps, h⟩ := Option.bind_eq_some_iff.1 h
  split at h
  · next kind columns =>
    obtain ⟨name, hname, h⟩ := Option.bind_eq_some_iff.1 h
    obtain ⟨layoutKind, -, h⟩ := Option.bind_eq_some_iff.1 h
    obtain ⟨count, hcount, h⟩ := Option.bind_eq_some_iff.1 h
    cases h
    exact ⟨kind, columns, name, hps, hname, hcount⟩
  · cases h

/-- A layout is read from a name alone, or from its parts. -/
theorem cases_of_ofJson? (h : ofJson? value = some layout) :
    layout.columns = none ∨ 0 < value.depth ∧
      ∃ part, (∀ j ∈ part, value.Holds j) ∧
        optionalPart? Json.float? part = some layout.columns := by
  unfold ofJson? at h
  rcases Option.or_eq_some_iff.1 h with hname | ⟨-, hparts⟩
  · left
    unfold ofNameJson? at hname
    obtain ⟨name, -, hname⟩ := Option.bind_eq_some_iff.1 hname
    obtain ⟨kind, -, hname⟩ := Option.bind_eq_some_iff.1 hname
    cases hname
    rfl
  · right
    obtain ⟨kind, columns, name, hps, -, hcolumns⟩ := exists_of_ofPartsJson? hparts
    refine ⟨depth_pos_of_parts? hps, columns, ?_, hcolumns⟩
    rintro j rfl
    exact holds_of_parts? hps (by simp)

theorem isFinite_of_ofJson? (h : ofJson? value = some layout) (hvalue : value.IsWritable) :
    ∀ x ∈ layout.columns, x.isFinite = true := by
  rcases cases_of_ofJson? h with hnone | ⟨-, part, hpart, hcolumns⟩
  · intro x hx
    rw [hnone] at hx
    cases hx
  · exact isFinite_of_optionalPart? hvalue hpart hcolumns

end Layout

/-! ### Encodings and steps -/

namespace Encoding

variable {value : Json} {e : Encoding}

/-- Every slot of an encoding was read by its own reader from something that
    the value of the encoding holds. -/
theorem exists_of_ofJson? (h : ofJson? value = some e) :
    0 < value.depth ∧
      (∀ c d, e.get? c = some d → ∃ part, value.Holds part ∧ Definition.ofJson? part = some d) ∧
      ∀ l, e.layout = some l → ∃ part, value.Holds part ∧ Layout.ofJson? part = some l := by
  unfold ofJson? at h
  obtain ⟨ps, hps, h⟩ := Option.bind_eq_some_iff.1 h
  have hread : ∀ {α : Type} {read : Json → Option α} {part : Option Json} {slot : Option α} {a : α},
      part ∈ ps → optionalPart? read part = some slot → slot = some a →
        ∃ j, value.Holds j ∧ read j = some a := by
    intro α read part slot a hpart hslot hsome
    rw [hsome] at hslot
    obtain ⟨j, rfl, hj⟩ := exists_of_optionalPart? hslot
    exact ⟨j, holds_of_parts? hps hpart, hj⟩
  refine ⟨depth_pos_of_parts? hps, ?_⟩
  split at h
  · simp only [Option.bind_eq_bind, Option.bind_eq_some_iff, Option.pure_def,
      Option.some.injEq] at h
    obtain ⟨x, hx, y, hy, z, hz, color, hcolor, shape, hshape, opacity, hopacity, size, hsize,
      angle, hangle, detail, hdetail, coordinates, -, layout, hlayout, rfl⟩ := h
    constructor
    · intro c d hd
      cases c with
      | x => exact hread (by simp) hx hd
      | y => exact hread (by simp) hy hd
      | z => exact hread (by simp) hz hd
      | color => exact hread (by simp) hcolor hd
      | shape => exact hread (by simp) hshape hd
      | opacity => exact hread (by simp) hopacity hd
      | size => exact hread (by simp) hsize hd
      | angle => exact hread (by simp) hangle hd
      | detail => exact hread (by simp) hdetail hd
    · intro l hl
      exact hread (by simp) hlayout hl
  · cases h

theorem isFinite_of_ofJson? (h : ofJson? value = some e) (hvalue : value.IsWritable) :
    ∀ x ∈ e.numbers, x.isFinite = true := by
  obtain ⟨-, hslots, hlayout⟩ := exists_of_ofJson? h
  intro x hx
  rcases mem_numbers.1 hx with ⟨c, d, hd, hx⟩ | ⟨l, hl, hx⟩
  · obtain ⟨part, hpart, hread⟩ := hslots c d hd
    exact Definition.isFinite_of_ofJson? hread (hpart.isWritable hvalue) x hx
  · obtain ⟨part, hpart, hread⟩ := hlayout l hl
    exact Layout.isFinite_of_ofJson? hread (hpart.isWritable hvalue) x hx

end Encoding

theorem eq_str_of_str? {value : Json} {s : String} (h : value.str? = some s) : value = .str s := by
  cases value with
  | str t =>
    cases h
    rfl
  | _ => cases h

/-- The parts of a bin. -/
theorem BinStep.exists_of_ofJson? {value : Json} {step : BinStep} (h : ofJson? value = some step) :
    ∃ width maxBins, parts? ["bin", "as", "step", "maxbins"] value =
        some [some (.str step.field), some (.str step.out), width, maxBins] ∧
      optionalPart? Json.float? width = some step.width := by
  unfold ofJson? at h
  obtain ⟨ps, hps, h⟩ := Option.bind_eq_some_iff.1 h
  split at h
  · next field out width maxBins =>
    obtain ⟨fieldName, hfield, h⟩ := Option.bind_eq_some_iff.1 h
    obtain ⟨outName, hout, h⟩ := Option.bind_eq_some_iff.1 h
    obtain ⟨number, hnumber, h⟩ := Option.bind_eq_some_iff.1 h
    obtain ⟨count, -, h⟩ := Option.bind_eq_some_iff.1 h
    cases h
    rw [eq_str_of_str? hfield, eq_str_of_str? hout] at hps
    exact ⟨width, maxBins, hps, hnumber⟩
  · cases h

/-- The parts of an aggregate. -/
theorem AggregateStep.exists_of_ofJson? {value : Json} {step : AggregateStep}
    (h : ofJson? value = some step) :
    ∃ field, parts? ["aggregate", "field", "as"] value =
      some [some (.str step.function), field, some (.str step.out)] := by
  unfold ofJson? at h
  obtain ⟨ps, hps, h⟩ := Option.bind_eq_some_iff.1 h
  split at h
  · next function field out =>
    obtain ⟨functionName, hfunction, h⟩ := Option.bind_eq_some_iff.1 h
    obtain ⟨fieldName, -, h⟩ := Option.bind_eq_some_iff.1 h
    obtain ⟨outName, hout, h⟩ := Option.bind_eq_some_iff.1 h
    cases h
    rw [eq_str_of_str? hfunction, eq_str_of_str? hout] at hps
    exact ⟨field, hps⟩
  · cases h

theorem BinStep.isFinite_of_ofJson? {value : Json} {step : BinStep}
    (h : ofJson? value = some step) (hvalue : value.IsWritable) :
    ∀ x ∈ step.width, x.isFinite = true := by
  obtain ⟨width, maxBins, hps, hwidth⟩ := exists_of_ofJson? h
  have hpart : ∀ j ∈ width, value.Holds j := by
    rintro j rfl
    exact holds_of_parts? hps (by simp)
  exact isFinite_of_optionalPart? hvalue hpart hwidth

namespace Step

variable {value : Json} {step : Step}

/-- A step is read from its parts. -/
theorem depth_pos_of_ofJson? (h : ofJson? value = some step) : 0 < value.depth := by
  unfold ofJson? at h
  rcases Option.or_eq_some_iff.1 h with hbin | ⟨-, haggregate⟩
  · obtain ⟨bin, hbin, -⟩ := Option.map_eq_some_iff.1 hbin
    obtain ⟨width, maxBins, hps, -⟩ := BinStep.exists_of_ofJson? hbin
    exact depth_pos_of_parts? hps
  · obtain ⟨aggregate, haggregate, -⟩ := Option.map_eq_some_iff.1 haggregate
    obtain ⟨field, hps⟩ := AggregateStep.exists_of_ofJson? haggregate
    exact depth_pos_of_parts? hps

theorem isFinite_of_ofJson? (h : ofJson? value = some step) (hvalue : value.IsWritable) :
    ∀ x ∈ step.numbers, x.isFinite = true := by
  unfold ofJson? at h
  rcases Option.or_eq_some_iff.1 h with hbin | ⟨-, haggregate⟩
  · obtain ⟨bin, hread, rfl⟩ := Option.map_eq_some_iff.1 hbin
    intro x hx
    rw [numbers, Option.mem_toList] at hx
    exact BinStep.isFinite_of_ofJson? hread hvalue x hx
  · obtain ⟨aggregate, -, rfl⟩ := Option.map_eq_some_iff.1 haggregate
    intro x hx
    cases hx

end Step

/-! ### Nodes -/

namespace View

variable {value body : Json} {head : ViewHead}

/-- The parts of a node. -/
theorem parts_of_headAndBody? (h : headAndBody? value = some (head, body)) :
    ∃ steps encoding, parts? partNames value = some [steps, some body, some encoding] ∧
      steps? steps = some head.steps ∧ Encoding.ofJson? encoding = some head.encoding := by
  unfold headAndBody? at h
  obtain ⟨ps, hps, h⟩ := Option.bind_eq_some_iff.1 h
  split at h
  · next stepsPart bodyPart encodingPart =>
    obtain ⟨steps, hsteps, h⟩ := Option.bind_eq_some_iff.1 h
    obtain ⟨encoding, hencoding, h⟩ := Option.bind_eq_some_iff.1 h
    cases h
    exact ⟨stepsPart, encodingPart, hps, hsteps, hencoding⟩
  · cases h

/-- The body of a node, its encoding and its steps are held by its value, the
    steps one level further down. -/
theorem exists_of_headAndBody? (h : headAndBody? value = some (head, body)) :
    value.Holds body ∧
      (∃ part, value.Holds part ∧ Encoding.ofJson? part = some head.encoding) ∧
      ∀ step ∈ head.steps, ∃ part item, value.Holds part ∧ part.Holds item ∧
        Step.ofJson? item = some step := by
  obtain ⟨stepsPart, encodingPart, hps, hsteps, hencoding⟩ := parts_of_headAndBody? h
  refine ⟨holds_of_parts? hps (by simp), ⟨encodingPart, holds_of_parts? hps (by simp), hencoding⟩,
    ?_⟩
  intro step hstep
  unfold steps? at hsteps
  split at hsteps
  · rw [← Option.some.inj hsteps] at hstep
    cases hstep
  · next items =>
    obtain ⟨item, hitem, hread⟩ := exists_of_forall₂_of_mem (mapM_eq_some_iff.1 hsteps) hstep
    exact ⟨.arr items, item, holds_of_parts? hps (by simp), .item hitem, hread⟩
  · cases hsteps

theorem isFinite_of_headAndBody? (h : headAndBody? value = some (head, body))
    (hvalue : value.IsWritable) : ∀ x ∈ head.numbers, x.isFinite = true := by
  obtain ⟨-, ⟨part, hpart, hencoding⟩, hsteps⟩ := exists_of_headAndBody? h
  intro x hx
  rcases List.mem_append.1 hx with hx | hx
  · obtain ⟨step, hstep, hx⟩ := List.mem_flatMap.1 hx
    obtain ⟨stepsPart, item, hstepsPart, hitem, hread⟩ := hsteps step hstep
    have hwritable := hitem.isWritable (hstepsPart.isWritable hvalue)
    exact Step.isFinite_of_ofJson? hread hwritable x hx
  · exact Encoding.isFinite_of_ofJson? hencoding (hpart.isWritable hvalue) x hx

/-- A body is a mark, a single view or an array of views. -/
theorem cases_of_ofBody? {child? : Json → Option View} {v : View}
    (h : ofBody? child? head body = some v) :
    (∃ kind, v = .mark head kind) ∨
      (∃ child, v = .nested head child ∧ child? body = some child) ∨
      ∃ items children, v = .concat head children ∧ body = .arr items ∧
        List.Forall₂ (fun item child => child? item = some child) items children := by
  unfold ofBody? at h
  rcases Option.or_eq_some_iff.1 h with hmark | ⟨-, h⟩
  · obtain ⟨kind, -, rfl⟩ := Option.map_eq_some_iff.1 hmark
    exact .inl ⟨kind, rfl⟩
  · rcases Option.or_eq_some_iff.1 h with hsingle | ⟨-, h⟩
    · obtain ⟨child, hchild, rfl⟩ := Option.map_eq_some_iff.1 hsingle
      exact .inr (.inl ⟨child, rfl, hchild⟩)
    · cases body with
      | arr items =>
        obtain ⟨children, hchildren, rfl⟩ := Option.map_eq_some_iff.1 h
        exact .inr (.inr ⟨items, children, rfl, rfl, mapM_eq_some_iff.1 hchildren⟩)
      | _ => cases h

/-- How many arrays and objects a child of the node nests deeper than the node:
    a member of a list stands in the array of the list too. -/
def nesting : View → Nat
  | .mark _ _ => 0
  | .nested _ _ => 1
  | .concat _ _ => 2

/-- A view that is read has the head that was read, and its children were read
    from values further inside. -/
theorem exists_of_ofJson? {v : View} {levels : Nat} (h : ofJson? levels value = some v) :
    ∃ fewer body, headAndBody? value = some (v.head, body) ∧
      ∀ child ∈ v.children, ∃ item, ofJson? fewer item = some child ∧
        item.depth + v.nesting ≤ value.depth ∧ (value.IsWritable → item.IsWritable) := by
  cases levels with
  | zero => cases h
  | succ fewer =>
    rw [ofJson?] at h
    obtain ⟨⟨head, body⟩, hhead, hbody⟩ := Option.bind_eq_some_iff.1 h
    have hholds := (exists_of_headAndBody? hhead).1
    have hdepth := hholds.depth_lt
    rcases cases_of_ofBody? hbody with
      ⟨kind, rfl⟩ | ⟨child, rfl, hchild⟩ | ⟨items, children, rfl, rfl, hchildren⟩
    · refine ⟨fewer, body, hhead, ?_⟩
      intro child hmem
      cases hmem
    · refine ⟨fewer, body, hhead, ?_⟩
      intro other hmem
      rw [List.mem_singleton.1 hmem]
      exact ⟨body, hchild, hdepth, hholds.isWritable⟩
    · refine ⟨fewer, .arr items, hhead, ?_⟩
      intro child hmem
      obtain ⟨item, hitem, hread⟩ := exists_of_forall₂_of_mem hchildren hmem
      have hinside : (Json.arr items).Holds item := .item hitem
      refine ⟨item, hread, ?_, fun hvalue => hinside.isWritable (hholds.isWritable hvalue)⟩
      have hlt := hinside.depth_lt
      rw [nesting]
      omega

/-- All numbers of a view that is read are finite, if its value can be written. -/
theorem isFinite_of_ofJson? {v : View} {levels : Nat} (h : ofJson? levels value = some v)
    (hvalue : value.IsWritable) : v.AllHeads fun head => ∀ x ∈ head.numbers, x.isFinite = true := by
  induction v using induction_children generalizing levels value with
  | step v ih =>
    obtain ⟨fewer, body, hhead, hchildren⟩ := exists_of_ofJson? h
    refine allHeads_iff.2 ⟨isFinite_of_headAndBody? hhead hvalue, ?_⟩
    intro child hmem
    obtain ⟨item, hread, -, hitem⟩ := hchildren child hmem
    exact ih child hmem hread (hitem hvalue)

end View

end PlotGrammar
