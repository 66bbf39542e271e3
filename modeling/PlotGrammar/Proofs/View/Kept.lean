import PlotGrammar.Proofs.Binary64.Bits
import PlotGrammar.Proofs.View.Written

/-! # Views of which nothing is lost

  What is lost of a view when it is written are its numbers that are not
  finite (`ViewHead.numbers`) and its constants that are null. For every part
  there are two lemmas: the part is the same without what is lost if and only
  if it has nothing of the kind (`written_eq_self_iff`), and it is equal to
  what is read of it only if it is the same (`written_beq_self`).

  The second is not a matter of course, as bucket widths and column counts are
  compared as doubles: a NaN is not equal to itself. But what is not equal to
  itself is not finite either, so it is lost.
-/

namespace PlotGrammar

/-! ### Numbers -/

/-- The constant numbers of a definition. -/
def Definition.numbers : Definition → List Float
  | .literal (.num x) => [x]
  | _ => []

/-- The numbers of an encoding: its constants and the column count of its layout. -/
def Encoding.numbers (e : Encoding) : List Float :=
  e.channels.toList.flatMap (fun b => b.2.numbers) ++
    (e.layout.bind fun layout => layout.columns).toList

/-- The numbers of a step: the bucket width of a bin step. -/
def Step.numbers : Step → List Float
  | .bin step => step.width.toList
  | .aggregate _ => []

/-- The numbers of a node: bucket widths, constants and the column count. -/
def ViewHead.numbers (head : ViewHead) : List Float :=
  head.steps.flatMap Step.numbers ++ head.encoding.numbers

theorem filter_isFinite_eq_self {x : Option Float} :
    x.filter Float.isFinite = x ↔ ∀ y ∈ x, y.isFinite = true := by
  cases x <;> simp

/-- A double that is lost differs from nothing at all, and a finite one is
    equal to itself. -/
theorem filter_isFinite_beq_self {x : Option Float} :
    (x.filter Float.isFinite == x) = true ↔ x.filter Float.isFinite = x := by
  cases x with
  | none => simp
  | some x =>
    by_cases hx : x.isFinite = true
    · have hself := Binary64.beq_self_of_isFinite hx
      simp [Option.filter, hx, hself]
    · simp [Option.filter, hx]

/-! ### Definitions and layouts -/

theorem Definition.beq_self (d : Definition) : (d == d) = true := by
  cases d with
  | field name type =>
    have hbeq : (field name type == field name type) = (name == name && type == type) := rfl
    simp [hbeq]
  | literal value =>
    have h : (value == value) = true := BEq.rfl
    exact h

theorem Definition.written_eq_self_iff {d : Definition} :
    d.written = some d ↔ d ≠ .literal .null ∧ ∀ x ∈ d.numbers, x.isFinite = true := by
  cases d with
  | field name type => simp [written, numbers]
  | literal value => cases value <;> simp [written, numbers]

theorem Definition.bind_written_eq_self_iff {d : Option Definition} :
    d.bind written = d ↔
      ∀ d' ∈ d, d' ≠ .literal .null ∧ ∀ x ∈ d'.numbers, x.isFinite = true := by
  cases d with
  | none => simp
  | some d => simpa using written_eq_self_iff

/-- A definition is read again as it is or not at all. -/
theorem Definition.written_eq_none_or (d : Definition) : d.written = none ∨ d.written = some d := by
  cases d with
  | field name type => exact .inr rfl
  | literal value =>
    cases value with
    | null => exact .inl rfl
    | num x =>
      rw [written]
      split
      · exact .inr rfl
      · exact .inl rfl
    | _ => exact .inr rfl

theorem Definition.bind_written_beq_self {d : Option Definition} :
    (d.bind written == d) = true ↔ d.bind written = d := by
  cases d with
  | none => simp
  | some d =>
    rw [Option.bind_some]
    rcases d.written_eq_none_or with h | h
    · simp [h]
    · simp [h, d.beq_self]

theorem Layout.written_beq_self {layout : Layout} :
    (layout.written == layout) = true ↔ layout.written = layout := by
  obtain ⟨kind, columns⟩ := layout
  have hcolumns := @filter_isFinite_beq_self columns
  have hbeq : ((written ⟨kind, columns⟩ : Layout) == ⟨kind, columns⟩) =
      (kind == kind && columns.filter Float.isFinite == columns) := rfl
  rw [hbeq]
  simp [written, hcolumns]

theorem Layout.written_eq_self_iff {layout : Layout} :
    layout.written = layout ↔ ∀ x ∈ layout.columns, x.isFinite = true := by
  obtain ⟨kind, columns⟩ := layout
  simp [written, filter_isFinite_eq_self]

/-! ### Encodings -/

theorem Channel.forall_iff {p : Channel → Prop} :
    (∀ c, p c) ↔ p .x ∧ p .y ∧ p .z ∧ p .color ∧ p .shape ∧ p .opacity ∧ p .size ∧ p .angle ∧
      p .detail := by
  constructor
  · intro h
    exact ⟨h _, h _, h _, h _, h _, h _, h _, h _, h _⟩
  · rintro ⟨hx, hy, hz, hcolor, hshape, hopacity, hsize, hangle, hdetail⟩ c
    cases c <;> assumption

namespace Encoding

/-- Two encodings are the same if all their slots and both controls are. -/
theorem eq_iff {e e' : Encoding} :
    e = e' ↔ (∀ c, e.get? c = e'.get? c) ∧ e.coordinates = e'.coordinates ∧
      e.layout = e'.layout := by
  obtain ⟨⟩ := e
  obtain ⟨⟩ := e'
  simp [Channel.forall_iff, get?, and_assoc]

theorem beq_iff {e e' : Encoding} :
    (e == e') = true ↔ (∀ c, (e.get? c == e'.get? c) = true) ∧ e.coordinates = e'.coordinates ∧
      (e.layout == e'.layout) = true := by
  have hbeq : (e == e') = (e.x == e'.x && (e.y == e'.y && (e.z == e'.z && (e.color == e'.color &&
      (e.shape == e'.shape && (e.opacity == e'.opacity && (e.size == e'.size &&
      (e.angle == e'.angle && (e.detail == e'.detail && (e.coordinates == e'.coordinates &&
      e.layout == e'.layout)))))))))) := rfl
  rw [hbeq]
  simp [Channel.forall_iff, get?, and_assoc]

theorem get?_written (e : Encoding) (c : Channel) :
    e.written.get? c = (e.get? c).bind Definition.written := by
  cases c <;> rfl

theorem layout_written_beq_self {layout : Option Layout} :
    (layout.map Layout.written == layout) = true ↔ layout.map Layout.written = layout := by
  cases layout with
  | none => simp
  | some layout => simp [Layout.written_beq_self]

theorem written_beq_self {e : Encoding} : (e.written == e) = true ↔ e.written = e := by
  rw [beq_iff, eq_iff]
  simp only [get?_written, Definition.bind_written_beq_self]
  rw [show e.written.layout = e.layout.map Layout.written from rfl, layout_written_beq_self]

theorem mem_numbers {e : Encoding} {x : Float} :
    x ∈ e.numbers ↔
      (∃ c, ∃ d ∈ e.get? c, x ∈ d.numbers) ∨ ∃ layout ∈ e.layout, x ∈ layout.columns := by
  rw [numbers, List.mem_append, List.mem_flatMap, Prod.exists]
  simp [ChannelMap.mem_toList, channels, Option.bind_eq_some_iff]

theorem layout_written_eq_self_iff {layout : Option Layout} :
    layout.map Layout.written = layout ↔
      ∀ l ∈ layout, ∀ x ∈ l.columns, x.isFinite = true := by
  cases layout with
  | none => simp
  | some layout => simp [Layout.written_eq_self_iff]

theorem written_eq_self_iff {e : Encoding} :
    e.written = e ↔
      (∀ c, e.get? c ≠ some (.literal .null)) ∧ ∀ x ∈ e.numbers, x.isFinite = true := by
  have hlayout : e.written.layout = e.layout.map Layout.written := rfl
  rw [eq_iff, hlayout, layout_written_eq_self_iff]
  simp only [get?_written, Definition.bind_written_eq_self_iff, mem_numbers]
  constructor
  · intro ⟨hslots, _, hcolumns⟩
    refine ⟨fun c hnull => (hslots c _ hnull).1 rfl, fun x hx => ?_⟩
    rcases hx with ⟨c, d, hd, hx⟩ | ⟨layout, hlayout, hx⟩
    · exact (hslots c d hd).2 x hx
    · exact hcolumns layout hlayout x hx
  · intro ⟨hnull, hfinite⟩
    refine ⟨fun c d hd => ⟨?_, fun x hx => hfinite x (.inl ⟨c, d, hd, hx⟩)⟩, rfl,
      fun layout hlayout x hx => hfinite x (.inr ⟨layout, hlayout, hx⟩)⟩
    rintro rfl
    exact hnull c hd

end Encoding

/-! ### Steps -/

namespace Step

theorem written_beq_self {step : Step} : (step.written == step) = true ↔ step.written = step := by
  cases step with
  | bin step =>
    obtain ⟨field, out, width, maxBins⟩ := step
    have hbeq : ((bin ⟨field, out, width, maxBins⟩).written == bin ⟨field, out, width, maxBins⟩) =
      (field == field && (out == out && (width.filter Float.isFinite == width &&
        maxBins == maxBins))) := rfl
    rw [hbeq]
    simp [written, BinStep.written, filter_isFinite_beq_self]
  | aggregate step =>
    have hbeq : (aggregate step == aggregate step) = (step == step) := rfl
    simp [written, hbeq]

theorem written_eq_self_iff {step : Step} :
    step.written = step ↔ ∀ x ∈ step.numbers, x.isFinite = true := by
  cases step with
  | bin step =>
    obtain ⟨field, out, width, maxBins⟩ := step
    simp [written, BinStep.written, numbers, filter_isFinite_eq_self]
  | aggregate step => simp [written, numbers]

end Step

/-! ### Nodes -/

namespace ViewHead

theorem map_written_beq_self {steps : List Step} :
    (steps.map Step.written == steps) = true ↔ steps.map Step.written = steps := by
  induction steps with
  | nil => simp
  | cons step steps ih => simp [ih, Step.written_beq_self]

theorem written_beq_self {head : ViewHead} :
    (head.written == head) = true ↔ head.written = head := by
  obtain ⟨steps, encoding⟩ := head
  have hbeq : (written ⟨steps, encoding⟩ == ⟨steps, encoding⟩) =
      (steps.map Step.written == steps && encoding.written == encoding) := rfl
  rw [hbeq]
  simp [written, map_written_beq_self, Encoding.written_beq_self]

theorem written_eq_self_iff {head : ViewHead} :
    head.written = head ↔
      (∀ c, head.encoding.get? c ≠ some (.literal .null)) ∧
        ∀ x ∈ head.numbers, x.isFinite = true := by
  obtain ⟨steps, encoding⟩ := head
  have hsteps : steps.map Step.written = steps ↔
      ∀ step ∈ steps, ∀ x ∈ step.numbers, x.isFinite = true := by
    simp only [map_eq_self_iff, Step.written_eq_self_iff]
  simp only [written, ViewHead.mk.injEq, hsteps, Encoding.written_eq_self_iff, numbers,
    List.mem_append, List.mem_flatMap]
  constructor
  · rintro ⟨hwidths, hnull, hfinite⟩
    refine ⟨hnull, fun x hx => ?_⟩
    rcases hx with ⟨step, hstep, hx⟩ | hx
    · exact hwidths step hstep x hx
    · exact hfinite x hx
  · rintro ⟨hnull, hfinite⟩
    exact ⟨fun step hstep x hx => hfinite x (.inl ⟨step, hstep, hx⟩), hnull,
      fun x hx => hfinite x (.inr hx)⟩

end ViewHead

/-! ### Views -/

namespace View

theorem beqs_writtens {views : List View}
    (ih : ∀ v ∈ views, v.written.beq v = true ↔ v.written = v) :
    beqs (writtens views) views = true ↔ writtens views = views := by
  induction views with
  | nil => simp [writtens, beqs]
  | cons v rest ihrest =>
    have hv := ih v List.mem_cons_self
    have hrest := ihrest fun w hw => ih w (List.mem_cons_of_mem _ hw)
    simp [writtens, beqs, hv, hrest]

theorem written_beq_self {v : View} : (v.written == v) = true ↔ v.written = v := by
  change v.written.beq v = true ↔ _
  induction v with
  | mark head kind => simp [written, beq, ViewHead.written_beq_self]
  | nested head child ih => simp [written, beq, ViewHead.written_beq_self, ih]
  | concat head children ih =>
    simp [written, beq, ViewHead.written_beq_self, beqs_writtens ih]

theorem written_eq_self_iff {v : View} :
    v.written = v ↔ v.AllHeads fun head => head.written = head := by
  induction v with
  | mark head kind => simp [written]
  | nested head child ih => simp [written, ih]
  | concat head children ih =>
    rw [written, allHeads_concat, View.concat.injEq, writtens_eq_map, map_eq_self_iff]
    exact and_congr_right fun _ => forall₂_congr ih

end View

end PlotGrammar
