import PlotGrammar.Yaml.Event

/-! # Documents

  The first document of a text, whose aliases are the places of their targets
  among the events.

  An anchor is numbered by how many names have been anchored before it, and a
  name stands for its latest number. A number stands for the last anchor that
  has it, even if that one comes after the alias.
-/

namespace PlotGrammar.Yaml

/-- The first document of a text. -/
structure Document where
  events : List (Event Nat)
  /-- The line at which the document stops making sense, if it does. -/
  fault : Option Nat
  /-- Whether something follows the document. -/
  followed : Bool

/-! ### Anchors -/

/-- The anchors that were met. -/
structure Anchors where
  /-- The names and their latest numbers. -/
  numbers : List (String × Nat) := []
  /-- The numbers and the places of their events, the latest first. -/
  places : List (Nat × Nat) := []

/-- Number the anchor of the event at a place. -/
def Anchors.add (anchors : Anchors) (name : String) (place : Nat) : Anchors :=
  let number := anchors.numbers.length
  ⟨(name, number) :: anchors.numbers.filter (·.1 != name), (number, place) :: anchors.places⟩

/-- The anchor of an event. -/
def Event.Kind.anchor? {ρ : Type} : Event.Kind ρ → Option String
  | .scalar anchor _ _ _ => anchor
  | .sequenceStart anchor => anchor
  | .mappingStart anchor => anchor
  | _ => none

/-- An event with another target, if it is an alias. -/
def Event.Kind.retarget? {ρ σ : Type} (target? : ρ → Option σ) : Event.Kind ρ → Option (Event.Kind σ)
  | .alias target => (target? target).map .alias
  | .scalar anchor tag style text => some (.scalar anchor tag style text)
  | .sequenceStart anchor => some (.sequenceStart anchor)
  | .sequenceEnd => some .sequenceEnd
  | .mappingStart anchor => some (.mappingStart anchor)
  | .mappingEnd => some .mappingEnd

/-- The events from a place on with numbers for names, up to an alias of an
    unknown name, and all anchors. -/
def numberAnchors (anchors : Anchors) (place : Nat) :
    List (Event String) → Option Nat → Readout (Event Nat) × Anchors
  | [], fault => (⟨[], fault⟩, anchors)
  | e :: rest, fault =>
    match e.kind.retarget? (List.lookup · anchors.numbers) with
    | none => (⟨[], some e.line⟩, anchors)
    | some kind =>
      let anchors := e.kind.anchor?.elim anchors (anchors.add · place)
      let (more, anchors) := numberAnchors anchors (place + 1) rest fault
      (more.cons ⟨e.line, kind⟩, anchors)

/-- Put places for numbers. -/
def placeAliases (anchors : Anchors) (events : List (Event Nat)) : List (Event Nat) :=
  events.filterMap fun e => (e.kind.retarget? (List.lookup · anchors.places)).map fun kind => ⟨e.line, kind⟩

/-! ### Reading -/

/-- Whether something follows a document, be it without sense. Marks alone are nothing. -/
def isFollowed (tokens : Readout Token) : Bool :=
  match tokens.items.dropWhile (·.kind = .documentEnd) with
  | token :: _ => token.kind ≠ .textEnd
  | [] => true

/-- The first document of a text. -/
def Document.ofText (text : String) : Document :=
  let (events, after) := firstDocument (tokens text)
  let (numbered, anchors) := numberAnchors {} 0 events.items events.fault
  ⟨placeAliases anchors numbered.items, numbered.fault, isFollowed after⟩

end PlotGrammar.Yaml
