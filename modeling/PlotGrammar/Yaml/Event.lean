import PlotGrammar.Yaml.Token

/-! # Events

  The nodes of a document in the order in which they stand: a scalar or an
  alias is one event, a collection has a start and an end. What a block or a
  key leaves out is an empty plain scalar.

  The events of a text that stops making sense are those before that place.
  The recursion is bounded by a number of steps; every second step takes a
  token.
-/

namespace PlotGrammar.Yaml

/-- What an event is. An alias has a target of type `ρ`. -/
inductive Event.Kind (ρ : Type) where
  | alias (target : ρ)
  | scalar (anchor : Option String) (tag : Option String) (style : Style) (text : String)
  | sequenceStart (anchor : Option String)
  | sequenceEnd
  | mappingStart (anchor : Option String)
  | mappingEnd
deriving Repr

/-- An event and its line. A node starts with its properties. -/
structure Event (ρ : Type) where
  line : Nat
  kind : Event.Kind ρ
deriving Repr

/-- The state of reading the events of a document. -/
structure Production where
  tokens : Readout Token
  /-- The events so far, the latest first. -/
  events : List (Event String) := []
  /-- The names that the handles of tags stand for. -/
  handles : List (String × String) := []

/-- A step of reading that may stop, with what was read before. -/
abbrev Producing := ExceptT Nat (StateM Production)

namespace Producing

/-! ### Tokens and events -/

/-- The next token, which stays. -/
def peek : Producing Token := do
  let tokens := (← get).tokens
  match tokens.items with
  | token :: _ => return token
  | [] => throw tokens.faultLine

/-- Take the next token. -/
def take : Producing Unit :=
  modify fun p => { p with tokens := { p.tokens with items := p.tokens.items.drop 1 } }

/-- Whether the next token is one of a list. -/
def isBefore (kinds : List Token.Kind) : Producing Bool := return kinds.contains (← peek).kind

/-- Add an event. -/
def emit (line : Nat) (kind : Event.Kind String) : Producing Unit :=
  modify fun p => { p with events := ⟨line, kind⟩ :: p.events }

/-- Add the node of nothing at all. -/
def emitEmpty (line : Nat) : Producing Unit := emit line (.scalar none none .plain "")

/-! ### Properties -/

/-- The properties of a node as they are written, and the line of the tag. -/
structure Properties where
  /-- The line on which the node starts. -/
  line : Nat
  anchor : Option String := none
  tag : Option (Nat × Tag) := none

/-- The anchor and the tag before a node, in either order. -/
def properties : Producing Properties := do
  let first ← peek
  match first.kind with
  | .anchor name =>
    take
    let second ← peek
    match second.kind with
    | .tag tag => do take; return ⟨first.line, some name, some (second.line, tag)⟩
    | _ => return ⟨first.line, some name, none⟩
  | .tag tag =>
    take
    let second ← peek
    match second.kind with
    | .anchor name => do take; return ⟨first.line, some name, some (first.line, tag)⟩
    | _ => return ⟨first.line, none, some (first.line, tag)⟩
  | _ => return ⟨first.line, none, none⟩

/-- The full name of a tag. Its handle has to be declared. -/
def tagName? (p : Properties) : Producing (Option String) := do
  match p.tag with
  | none => return none
  | some (line, tag) =>
    if tag.handle.isEmpty then return some tag.suffix
    match (← get).handles.lookup tag.handle with
    | some name => return some (name ++ tag.suffix)
    | none => throw line

/-! ### Nodes -/

/-- Take the comma between two parts in brackets. -/
def comma : Producing Unit := do
  let token ← peek
  if token.kind = .flowEntry then take else throw token.line

mutual

/-- A node. Block collections and sequences that are not indented can be had
    only in some places. -/
def node (inBlock dashes : Bool) : Nat → Producing Unit
  | 0 => throw 0
  | steps + 1 => do
    let first ← peek
    match first.kind with
    | .alias name =>
      take
      emit first.line (.alias name)
    | _ =>
      let p ← properties
      let next ← peek
      let tag ← tagName? p
      match next.kind with
      | .scalar style text =>
        take
        emit p.line (.scalar p.anchor tag style text)
      | .flowSequence =>
        emit p.line (.sequenceStart p.anchor)
        take
        flowItems true steps
      | .flowMapping =>
        emit p.line (.mappingStart p.anchor)
        take
        flowEntries true steps
      | kind =>
        if dashes && kind = .blockEntry then
          emit p.line (.sequenceStart p.anchor)
          dashItems steps
        else if inBlock && kind = .blockSequence then
          emit p.line (.sequenceStart p.anchor)
          take
          blockItems steps
        else if inBlock && kind = .blockMapping then
          emit p.line (.mappingStart p.anchor)
          take
          blockEntries steps
        else if p.anchor.isSome || tag.isSome then
          emit p.line (.scalar p.anchor tag .plain "")
        else throw next.line
termination_by structural steps => steps

/-- The items of a block sequence up to its end. -/
def blockItems : Nat → Producing Unit
  | 0 => throw 0
  | steps + 1 => do
    let token ← peek
    match token.kind with
    | .blockEntry =>
      take
      if ← isBefore [.blockEntry, .blockEnd] then emitEmpty token.line else node true false steps
      blockItems steps
    | .blockEnd =>
      take
      emit token.line .sequenceEnd
    | _ => throw token.line
termination_by structural steps => steps

/-- The items of a sequence that is not indented, up to anything but a dash. -/
def dashItems : Nat → Producing Unit
  | 0 => throw 0
  | steps + 1 => do
    let token ← peek
    match token.kind with
    | .blockEntry =>
      take
      if ← isBefore [.blockEntry, .key, .value, .blockEnd] then emitEmpty token.line
      else node true false steps
      dashItems steps
    | _ => emit token.line .sequenceEnd
termination_by structural steps => steps

/-- What stands after a key mark or a colon of a block. -/
def blockPart (line : Nat) : Nat → Producing Unit
  | 0 => throw 0
  | steps + 1 => do
    if ← isBefore [.key, .value, .blockEnd] then emitEmpty line else node true true steps
termination_by structural steps => steps

/-- The entries of a block mapping up to its end. -/
def blockEntries : Nat → Producing Unit
  | 0 => throw 0
  | steps + 1 => do
    let token ← peek
    match token.kind with
    | .key =>
      take
      blockPart token.line steps
      let colon ← peek
      if colon.kind = .value then
        take
        blockPart colon.line steps
      else emitEmpty colon.line
      blockEntries steps
    | .blockEnd =>
      take
      emit token.line .mappingEnd
    | _ => throw token.line
termination_by structural steps => steps

/-- A colon and what stands after it in brackets, or nothing. -/
def flowValue (close : Token.Kind) : Nat → Producing Unit
  | 0 => throw 0
  | steps + 1 => do
    if ← isBefore [.value] then
      take
      if ← isBefore [.flowEntry, close] then emitEmpty (← peek).line else node false false steps
    else emitEmpty (← peek).line
termination_by structural steps => steps

/-- The items of a sequence in brackets up to its end. -/
def flowItems (first : Bool) : Nat → Producing Unit
  | 0 => throw 0
  | steps + 1 => do
    if !first && !(← isBefore [.flowSequenceEnd]) then comma
    let token ← peek
    match token.kind with
    | .flowSequenceEnd =>
      take
      emit token.line .sequenceEnd
    | .key =>
      -- A key with its value is an item of its own.
      emit token.line (.mappingStart none)
      take
      let key ← peek
      if [.value, .flowEntry, .flowSequenceEnd].contains key.kind then
        -- The token that shows that there is no key is not read again.
        take
        emitEmpty key.line
      else node false false steps
      flowValue .flowSequenceEnd steps
      emit (← peek).line .mappingEnd
      flowItems false steps
    | _ =>
      node false false steps
      flowItems false steps
termination_by structural steps => steps

/-- The entries of a mapping in brackets up to its end. -/
def flowEntries (first : Bool) : Nat → Producing Unit
  | 0 => throw 0
  | steps + 1 => do
    if !first && !(← isBefore [.flowMappingEnd]) then comma
    let token ← peek
    match token.kind with
    | .flowMappingEnd =>
      take
      emit token.line .mappingEnd
    | .key =>
      take
      if ← isBefore [.value, .flowEntry, .flowMappingEnd] then emitEmpty (← peek).line
      else node false false steps
      flowValue .flowMappingEnd steps
      flowEntries false steps
    | _ =>
      node false false steps
      emitEmpty (← peek).line
      flowEntries false steps
termination_by structural steps => steps

end

/-! ### Documents -/

/-- The handles that need no directive. -/
def commonHandles : List (String × String) := [("!", "!"), ("!!", "tag:yaml.org,2002:")]

/-- Take the directives before a document. There may be one version, which is
    1.1 or 1.2, and one name for a handle. -/
def directives (versioned : Bool) : Nat → Producing Unit
  | 0 => throw 0
  | steps + 1 => do
    let token ← peek
    match token.kind with
    | .directive (.version major minor) =>
      if versioned || major ≠ 1 || !(minor = 1 || minor = 2) then throw token.line
      take
      directives true steps
    | .directive (.shorthand handle name) =>
      if ((← get).handles.lookup handle).isSome then throw token.line
      modify fun p => { p with handles := (handle, name) :: p.handles }
      take
      directives versioned steps
    | _ => return

/-- Whether a token cannot start the node of a document. -/
def endsDocument : Token.Kind → Bool
  | .directive _ | .documentStart | .documentEnd | .textEnd => true
  | _ => false

/-- The node of a document after its mark. -/
def markedNode (steps : Nat) : Producing Unit := do
  directives false steps
  modify fun p => { p with handles := p.handles ++ commonHandles }
  let mark ← peek
  if mark.kind ≠ .documentStart then throw mark.line
  take
  let content ← peek
  if endsDocument content.kind then emitEmpty content.line else node true false steps

/-- The first document of a text and the mark at its end. The node of no
    document is empty. -/
def document (steps : Nat) : Producing Unit := do
  let first ← peek
  match first.kind with
  | .textEnd => emitEmpty first.line
  | .directive _ => markedNode steps
  | .documentStart => markedNode steps
  | _ =>
    modify fun p => { p with handles := commonHandles }
    node true false steps
  if ← isBefore [.documentEnd] then take

end Producing

/-- The events of the first document of a text, and the tokens after it. -/
def firstDocument (tokens : Readout Token) : Readout (Event String) × Readout Token :=
  let steps := 4 * tokens.items.length + 8
  let (result, last) := (Producing.document steps).run { tokens := tokens }
  let fault := match result with
    | .ok _ => none
    | .error line => some line
  (⟨last.events.reverse, fault⟩, last.tokens)

end PlotGrammar.Yaml
