import PlotGrammar.Proofs.Evaluation.Faults
import PlotGrammar.Proofs.NodePath

/-! # Messages name their node

  The message of a failure prints the path of its node among other texts, some
  of them free: the name of a missing field may look like a path itself. Still
  the path can be told from the rest (`Failure.place?_message`). Either it is the
  last word of the message, or it ends at the first colon, since a path has no
  blanks and no colons.

  So a message determines the path, and with a failure of compiling it leads to
  a single node of the view (`node_of_display`).
-/

namespace PlotGrammar

namespace Failure

/-- What stands before the path in a message that goes on after it. -/
def openings : List (List Char) :=
  ["invalid spec at ".toList, "invalid layout at ".toList, "evaluation budget exceeded at ".toList,
    "no result at ".toList]

/-- The path that a message names: the last word if something is unknown, and
    else what stands between an opening and a colon. -/
def place? (message : List Char) : Option NodePath :=
  if "unknown ".toList.isPrefixOf message then
    some (.ofCharacters (message.reverse.takeWhile (· != ' ')).reverse)
  else
    (openings.findSome? fun opening => opening.isPrefixOf? message).map fun rest =>
      .ofCharacters (rest.takeWhile (· != ':'))

theorem place?_of_opening {opening : List Char} (h : opening ∈ openings) (p : NodePath)
    (rest : List Char) : place? (opening ++ (p.characters ++ ':' :: rest)) = some p := by
  -- The openings differ from each other before any of them ends.
  have hfound : place? (opening ++ (p.characters ++ ':' :: rest)) =
      some (.ofCharacters ((p.characters ++ ':' :: rest).takeWhile (· != ':'))) := by
    simp only [openings, List.mem_cons, List.not_mem_nil, or_false] at h
    rcases h with rfl | rfl | rfl | rfl <;> rfl
  have hcolon : ∀ c ∈ p.characters, (c != ':') = true := fun _ hc =>
    NodePath.bne_of_mem_characters (by decide) (by decide) hc
  rw [hfound, List.takeWhile_append_of_pos hcolon, List.takeWhile_cons_of_neg (by simp),
    List.append_nil, NodePath.ofCharacters_characters]

theorem place?_of_unknown (before : List Char) (p : NodePath) :
    place? ("unknown ".toList ++ (before ++ ("' at ".toList ++ p.characters))) = some p := by
  have hblank : ∀ c ∈ p.characters.reverse, (c != ' ') = true := fun _ hc =>
    NodePath.bne_of_mem_characters (by decide) (by decide) (List.mem_reverse.1 hc)
  have hlast : ("unknown ".toList ++ (before ++ ("' at ".toList ++ p.characters))).reverse.takeWhile
      (· != ' ') = p.characters.reverse := by
    simp [List.takeWhile_append_of_pos hblank]
  rw [place?, hlast, List.reverse_reverse, NodePath.ofCharacters_characters]
  rfl

/-- How the message of a failure of a node reads. -/
theorem message_cases {e : Failure} {p : NodePath} (h : e.path? = some p) :
    (∃ opening ∈ openings, ∃ rest, e.message.toList = opening ++ (p.characters ++ ':' :: rest)) ∨
      ∃ before, e.message.toList =
        "unknown ".toList ++ (before ++ ("' at ".toList ++ p.characters)) := by
  cases e with
  | invalidSpec _ fault =>
    cases h
    refine .inl ⟨"invalid spec at ".toList, by simp [openings], ' ' :: fault.message.toList, ?_⟩
    show ("invalid spec at " ++ p.display ++ ": " ++ fault.message).toList = _
    simp
  | unknownField _ field =>
    cases h
    refine .inr ⟨"field '".toList ++ field.toList, ?_⟩
    show ("unknown field '" ++ field ++ "' at " ++ p.display).toList = _
    simp
  | unknownAggregate _ function =>
    cases h
    refine .inr ⟨"aggregate '".toList ++ function.toList, ?_⟩
    show ("unknown aggregate '" ++ function ++ "' at " ++ p.display).toList = _
    simp
  | invalidLayout _ fault =>
    cases h
    refine .inl ⟨"invalid layout at ".toList, by simp [openings], ' ' :: fault.message.toList, ?_⟩
    show ("invalid layout at " ++ p.display ++ ": " ++ fault.message).toList = _
    simp
  | budgetExceeded _ limit allowed actual =>
    cases h
    refine .inl ⟨"evaluation budget exceeded at ".toList, by simp [openings],
      ' ' :: (limit.name ++ " is " ++ toString actual ++ ", limit " ++ toString allowed).toList, ?_⟩
    show ("evaluation budget exceeded at " ++ p.display ++ ": " ++ limit.name ++ " is "
      ++ toString actual ++ ", limit " ++ toString allowed).toList = _
    simp
  | aborted _ cause =>
    cases h
    refine .inl ⟨"no result at ".toList, by simp [openings], ' ' :: cause.message.toList, ?_⟩
    show ("no result at " ++ p.display ++ ": " ++ cause.message).toList = _
    simp
  | _ => cases h

/-- A failure outside of any node has a message that names none. -/
theorem place?_of_path?_eq_none {e : Failure} (h : e.path? = none) :
    place? e.message.toList = none := by
  cases e with
  | badConfig line fault =>
    show place? ("configuration error at line " ++ toString line ++ ": " ++ fault.message).toList =
      none
    simp only [String.toList_append, List.append_assoc]
    rfl
  | missingConfig name =>
    show place? ("configuration file not found: " ++ name).toList = none
    rw [String.toList_append]
    rfl
  | rowLength expected actual =>
    show place? ("row has " ++ toString actual ++ " values, table has " ++ toString expected
      ++ " fields").toList = none
    simp only [String.toList_append, List.append_assoc]
    rfl
  | badTable fault =>
    show place? ("invalid table data: " ++ fault.message).toList = none
    rw [String.toList_append]
    rfl
  | unwritable text =>
    show place? ("serialization failed: " ++ text).toList = none
    rw [String.toList_append]
    rfl
  | _ => cases h

/-- The path of a failure can be read off its message. -/
theorem place?_message (e : Failure) : place? e.message.toList = e.path? := by
  cases h : e.path? with
  | none => exact place?_of_path?_eq_none h
  | some p =>
    rcases message_cases h with ⟨opening, hopening, rest, hmessage⟩ | ⟨before, hmessage⟩
    · rw [hmessage]
      exact place?_of_opening hopening p rest
    · rw [hmessage]
      exact place?_of_unknown before p

/-- The message of a failure prints the path of its node. -/
theorem isInfix_message {e : Failure} {p : NodePath} (h : e.path? = some p) :
    p.display.toList <:+: e.message.toList := by
  rw [NodePath.toList_display]
  rcases message_cases h with ⟨opening, -, rest, hmessage⟩ | ⟨before, hmessage⟩
  · exact ⟨opening, ':' :: rest, by rw [hmessage, List.append_assoc]⟩
  · exact ⟨"unknown ".toList ++ (before ++ "' at ".toList), [], by simp [hmessage]⟩

end Failure

/-- A view that does not compile has the node that the failure names. -/
theorem exists_at?_of_compile_eq_error {config : Config} {v : View} {t : Table} {e : Failure}
    (h : compile config v t = .error e) :
    ∃ path w, e.path? = some path ∧ v.at? path.indices = some w := by
  rcases bind_eq_error_iff.1 h with hvalidate | ⟨-, -, h⟩
  · have hbelow : v.HasFaultBelow config (fun _ _ => False) .root e :=
      hasFaultBelow_of_checkAt hvalidate
    obtain ⟨path, w, hat, hfault⟩ := hbelow
    exact ⟨⟨path⟩, w, hfault.path?_eq, hat⟩
  · have hrun : Call.run config ⟨t, .empty, .root, v⟩ = .error e := of_bind_ok_eq_error h
    obtain ⟨path, above, w, -, -, hat, hfault⟩ := Reached.root.exists_fault hrun
    exact ⟨path, w, hfault.path?_eq, hat⟩

/-- Paths with the same text are the same, and a slash alone is the root.
    Failures with the same message come from the same node, or both from outside
    of any node. If a view does not compile, the message prints the path of a
    node of the view, and no other node of it has a path with that text. -/
theorem node_of_display :
    (∀ p q : NodePath, p.display = q.display ↔ p = q) ∧
    (∀ p : NodePath, p.display = "/" ↔ p = .root) ∧
    (∀ e e' : Failure, e.message = e'.message → e.path? = e'.path?) ∧
    ∀ (config : Config) (v : View) (t : Table) (e : Failure), compile config v t = .error e →
      ∃ path w, e.path? = some path ∧
        path.display.toList <:+: e.message.toList ∧
        v.at? path.indices = some w ∧
        ∀ q : NodePath, q.display = path.display → v.at? q.indices = some w := by
  have hroot : NodePath.root.display = "/" := rfl
  refine ⟨fun p q => NodePath.display_eq_display_iff, fun p => ?_, ?_, ?_⟩
  · rw [← hroot]
    exact NodePath.display_eq_display_iff
  · intro e e' h
    rw [← e.place?_message, h, e'.place?_message]
  · intro config v t e h
    obtain ⟨path, w, hpath, hat⟩ := exists_at?_of_compile_eq_error h
    refine ⟨path, w, hpath, Failure.isInfix_message hpath, hat, ?_⟩
    intro q hq
    rw [NodePath.display_eq_display_iff.1 hq]
    exact hat

/-- Beside points, a nested bar whose height is a field that no table has, with a
    name that looks like the end of a message. -/
def misleading : View :=
  .concat {} [
    .mark {} .point,
    .nested {} (.mark { encoding := { y := some (.field "a' at /7" none) } } .bar)]

/-- The path of the bar is read, and not what the name of the field suggests; a
    fault in the words of a caller can be worded as another one of its node. -/
theorem node_of_display_of_misleading :
    compile {} misleading ⟨["a"], [[.num 1.0]]⟩ = .error (.unknownField ⟨[1, 0]⟩ "a' at /7") ∧
    NodePath.display ⟨[1, 0]⟩ = "/1/0" ∧
    (NodePath.display ⟨[1, 0]⟩).toList <:+:
      (Failure.unknownField ⟨[1, 0]⟩ "a' at /7").message.toList ∧
    (∃ w, misleading.at? [1, 0] = some w ∧
      ∀ q : NodePath, q.display = NodePath.display ⟨[1, 0]⟩ → misleading.at? q.indices = some w) ∧
    (Failure.invalidSpec ⟨[2]⟩ .noViews).message =
      (Failure.invalidSpec ⟨[2]⟩ (.stated "view array must not be empty")).message ∧
    (Failure.invalidSpec ⟨[2]⟩ .noViews).path? =
      (Failure.invalidSpec ⟨[2]⟩ (.stated "view array must not be empty")).path? := by
  obtain ⟨-, -, hmessages, hcompile⟩ := node_of_display
  have h : compile {} misleading ⟨["a"], [[.num 1.0]]⟩ =
      .error (.unknownField ⟨[1, 0]⟩ "a' at /7") := rfl
  obtain ⟨path, w, hpath, hprinted, hat, honly⟩ := hcompile _ _ _ _ h
  obtain rfl : ⟨[1, 0]⟩ = path := Option.some.inj hpath
  exact ⟨h, rfl, hprinted, ⟨w, hat, honly⟩, rfl, hmessages _ _ rfl⟩

end PlotGrammar
