import PlotGrammar.Proofs.Json.RoundTrip
import PlotGrammar.Proofs.Results
import PlotGrammar.Proofs.View.Kept
import PlotGrammar.Proofs.View.Validity
import PlotGrammar.View.Reader

/-! # Views read back

  With a faithful codec, a view that is written and read again is the same
  view if and only if it is valid, all of its numbers are finite and its text
  does not nest too deeply (`read_write_iff`).

  What the text of a view shows can always be written (`isWritable_toJson`),
  and what is read of it is the view without what is lost, checked
  (`read_write`). Validation refuses constants that are null, so a valid view
  can only lose numbers that are not finite.
-/

namespace PlotGrammar

/-! ### Every view can be written -/

section

open Json (IsWritable)

/-- An object can be written if its parts can. -/
theorem isWritable_presentParts {parts : List (String × Option Json)}
    (h : ∀ part ∈ parts, ∀ value ∈ part.2, IsWritable value.shown) :
    IsWritable (Json.obj (presentParts parts)).shown := by
  rw [Json.shown, Json.shownMembers_eq_map]
  refine .obj (List.forall_mem_map.2 fun m hm => ?_)
  obtain ⟨part, hpart, hm⟩ := List.mem_flatMap.1 hm
  cases hvalue : part.2 with
  | none => rw [hvalue] at hm; cases hm
  | some value =>
    rw [hvalue, optionalMember_some, List.mem_singleton] at hm
    rw [hm]
    exact h part hpart value hvalue

theorem isWritable_arr {items : List Json} (h : ∀ item ∈ items, IsWritable item.shown) :
    IsWritable (Json.arr items).shown := by
  rw [Json.shown, Json.shownItems_eq_map]
  exact .arr (List.forall_mem_map.2 h)

theorem isWritable_str (s : String) : IsWritable (Json.str s).shown := .str s

theorem isWritable_ofFloat (x : Float) : IsWritable (Json.ofFloat x).shown := by
  rw [Json.shown_ofFloat]
  split
  · next hx => exact .num hx
  · exact .null

theorem isWritable_countJson (n : UInt64) : IsWritable (countJson n).shown :=
  .num n.toNat_lt

theorem Definition.isWritable_toJson (d : Definition) : IsWritable d.toJson.shown := by
  cases d with
  | field name type =>
    rw [toJson_field]
    refine isWritable_presentParts ?_
    simp [fieldParts, IsWritable.str, FieldType.toJson]
  | literal value =>
    cases value with
    | null => exact .null
    | bool value => exact .bool value
    | num x => exact isWritable_ofFloat x
    | text value => exact .str value

theorem Layout.isWritable_toJson (layout : Layout) : IsWritable layout.toJson.shown := by
  rcases layout.toJson_eq with hjson | ⟨-, hjson⟩
  · rw [hjson]
    refine isWritable_presentParts ?_
    simp [parts, IsWritable.str, isWritable_ofFloat]
  · rw [hjson]
    exact .str _

theorem Encoding.isWritable_toJson (e : Encoding) : IsWritable e.toJson.shown := by
  rw [toJson_eq]
  refine isWritable_presentParts (List.forall_mem_append.2 ⟨?_, ?_⟩)
  · simp [Definition.isWritable_toJson]
  · simp [Layout.isWritable_toJson, Coordinates.toJson, IsWritable.str]

theorem Step.isWritable_toJson (step : Step) : IsWritable step.toJson.shown := by
  cases step with
  | bin step =>
    rw [toJson, BinStep.toJson_eq]
    refine isWritable_presentParts ?_
    simp [BinStep.parts, IsWritable.str, isWritable_ofFloat, isWritable_countJson]
  | aggregate step =>
    rw [toJson, AggregateStep.toJson_eq]
    refine isWritable_presentParts ?_
    simp [AggregateStep.parts, IsWritable.str]

theorem ViewHead.isWritable_toJson (head : ViewHead) {body : Json} (h : IsWritable body.shown) :
    IsWritable (head.toJson body).shown := by
  have hsteps : IsWritable (Json.arr (head.steps.map Step.toJson)).shown :=
    isWritable_arr (List.forall_mem_map.2 fun step _ => step.isWritable_toJson)
  rw [toJson_eq]
  refine isWritable_presentParts ?_
  simp [parts, h, hsteps, Encoding.isWritable_toJson]

theorem View.isWritable_toJson (v : View) : IsWritable v.toJson.shown := by
  induction v with
  | mark head kind => exact head.isWritable_toJson (isWritable_str _)
  | nested head child ih => exact head.isWritable_toJson ih
  | concat head children ih =>
    refine head.isWritable_toJson (isWritable_arr ?_)
    rw [View.toJsons_eq_map]
    exact List.forall_mem_map.2 ih

end

namespace View

variable {codec : Json.Codec}

/-! ### Round trips -/

/-- What is read of a view that is written is checked after what is lost is gone. -/
theorem read_write (hcodec : codec.IsFaithful) (v : View) :
    read codec (v.write codec) =
      if v.toJson.depth < Json.nestingLimit then do
        v.written.validate
        return v.written
      else .error (.invalidSpec .root .unreadable) := by
  have hdepth := Json.depth_shown v.toJson
  -- The value itself may hold numbers without a text; what its text shows does not.
  rw [read, write, ← hcodec.write_shown, ← hdepth]
  by_cases hfits : v.toJson.shown.depth < Json.nestingLimit
  · rw [hcodec.read?_write _ v.isWritable_toJson hfits, if_pos hfits, Option.bind_some,
      fromJson?_shown]
  · have hdeep : Json.nestingLimit ≤ v.toJson.shown.depth := Nat.not_lt.1 hfits
    rw [hcodec.read?_write_deep _ v.isWritable_toJson hdeep, if_neg hfits, Option.bind_none]

/-- A valid view whose numbers are all finite loses nothing. -/
theorem written_eq_self {v : View} (hvalid : v.validate = .ok ())
    (hfinite : v.AllHeads fun head => ∀ x ∈ head.numbers, x.isFinite = true) : v.written = v := by
  have hsound : v.Sound := checkAt_eq_ok_iff.1 hvalid
  refine written_eq_self_iff.2 fun path w hat => ViewHead.written_eq_self_iff.2 ?_
  exact ⟨(hsound path w hat).head.literals, hfinite path w hat⟩

/-- A view that is written is read as an equal view if and only if it is
    valid, its numbers are finite and its text nests less than 128 deep. -/
theorem read_write_iff (hcodec : codec.IsFaithful) (v : View) :
    (∃ w, read codec (v.write codec) = .ok w ∧ (w == v) = true) ↔
      v.validate = .ok () ∧
        v.AllHeads (fun head => ∀ x ∈ head.numbers, x.isFinite = true) ∧
          v.toJson.depth < 128 := by
  rw [read_write hcodec]
  constructor
  · intro ⟨w, hread, heq⟩
    split at hread
    · next hdepth =>
      obtain ⟨_, hvalid, hw⟩ := bind_eq_ok_iff.1 hread
      cases hw
      -- The view that was read is valid, and the one that was written is no other.
      have hkept := written_beq_self.1 heq
      rw [hkept] at hvalid
      refine ⟨hvalid, fun path w hat => ?_, hdepth⟩
      exact (ViewHead.written_eq_self_iff.1 (written_eq_self_iff.1 hkept path w hat)).2
    · cases hread
  · intro ⟨hvalid, hfinite, hdepth⟩
    have hkept := written_eq_self hvalid hfinite
    have heq := written_beq_self.2 hkept
    rw [hkept] at heq
    have hlimit : v.toJson.depth < Json.nestingLimit := hdepth
    rw [if_pos hlimit, hkept, hvalid]
    exact ⟨v, rfl, heq⟩

/-- Bars of a constant opacity, as a single view inside another one. -/
def shadedBars (opacity : Float) : View :=
  .nested {} (.mark { encoding := { opacity := some (.literal (.num opacity)) } } .bar)

/-- Both of these views are valid. The one whose opacity is a number is read
    back, and the other one is not. -/
theorem read_write_iff_of_shadedBars :
    (∃ w, read .compact ((shadedBars 0.5).write .compact) = .ok w ∧
      (w == shadedBars 0.5) = true) ∧
    (shadedBars (0.0 / 0.0)).validate = .ok () ∧
    ¬ ∃ w, read .compact ((shadedBars (0.0 / 0.0)).write .compact) = .ok w ∧
      (w == shadedBars (0.0 / 0.0)) = true := by
  have hfinite : (shadedBars 0.5).AllHeads fun head => ∀ x ∈ head.numbers, x.isFinite = true := by
    rw [shadedBars, allHeads_nested, allHeads_mark]
    decide +kernel
  have hlost : ¬ (shadedBars (0.0 / 0.0)).AllHeads fun head =>
      ∀ x ∈ head.numbers, x.isFinite = true := by
    rw [shadedBars, allHeads_nested, allHeads_mark]
    decide +kernel
  refine ⟨?_, rfl, fun h => ?_⟩
  · exact (read_write_iff Json.Codec.isFaithful_compact _).2 ⟨rfl, hfinite, by decide⟩
  · exact hlost ((read_write_iff Json.Codec.isFaithful_compact _).1 h).2.1

end View

end PlotGrammar
