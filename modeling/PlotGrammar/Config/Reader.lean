import PlotGrammar.Config.Basic
import PlotGrammar.Failure
import PlotGrammar.Yaml.Document

/-! # Reading configurations

  A configuration is a YAML mapping with optional sections. An unknown key is
  ignored, a repeated one is refused, and a section that is left empty has its
  defaults. An empty text is the default configuration.

  A configuration is read off the events of its document in their order, so
  that of two faults the first one is reported, be it a value of the wrong kind
  or a place where the text stops making sense. A value of the wrong kind is
  reported with its line.
-/

namespace PlotGrammar

namespace Config

/-! ### Events -/

/-- An event of a configuration. -/
abbrev Event := Yaml.Event Nat

/-- A reader takes a value off the events that are left of a document. -/
abbrev Reader := ReaderT Yaml.Document (StateT (List Event) Yaml.Result)

namespace Reader

/-- The next event, which stays. -/
def peek : Reader Event := do
  match ← get with
  | e :: _ => return e
  | [] => throw ((← read).fault.getD 0)

/-- The next event. -/
def next : Reader Event := do
  let e ← peek
  modify (·.drop 1)
  return e

/-- Read a value from its first event on, which for an alias is elsewhere. -/
def value {α : Type} (reader : Event → Reader α) : Reader α := do
  let e ← next
  match e.kind with
  | .alias place =>
    let rest ← get
    set ((← read).events.drop place)
    let a ← reader (← next)
    set rest
    return a
  | _ => reader e

/-- The events after a value inside of which `depth` collections are open. -/
def afterValue (fault : Nat) : Nat → List Event → Yaml.Result (List Event)
  | _, [] => .error fault
  | depth, e :: rest =>
    let depth := match e.kind with
      | .sequenceStart _ | .mappingStart _ => depth + 1
      | .sequenceEnd | .mappingEnd => depth - 1
      | .alias _ | .scalar .. => depth
    if depth = 0 then .ok rest else afterValue fault depth rest

/-- Leave out a value. Its aliases are not followed. -/
def skip : Reader Unit := do
  set (← afterValue ((← read).fault.getD 0) 0 (← get))

end Reader

/-! ### Values -/

/-- The tag of integers. -/
def integerTag : String := "tag:yaml.org,2002:int"

/-- The tag of null. -/
def nullTag : String := "tag:yaml.org,2002:null"

/-- The words for null. -/
def nullWords : List String := ["~", "null", "Null", "NULL"]

/-- Whether a scalar may be a number: if it is plain, or a literal block that is
    said to be one. -/
def mayBeNumber (tag : Option String) (style : Yaml.Style) : Bool :=
  style = .plain || (style = .literal && tag = some integerTag)

/-- The integer below a bound that an event writes. -/
def integerAt (bound : Nat) (e : Event) : Yaml.Result Nat :=
  match e.kind with
  | .scalar _ tag style text =>
    if mayBeNumber tag style then
      match Yaml.natural? text.toList with
      | some n => if n < bound then .ok n else .error e.line
      | none => .error e.line
    else .error e.line
  | _ => .error e.line

/-- Whether an event is null. What is said to be null has to be, and is reported
    at the line of its mapping if it is not. -/
def isNullAt (line : Nat) (e : Event) : Yaml.Result Bool :=
  match e.kind with
  | .scalar _ none .plain text => .ok (text.isEmpty || nullWords.contains text)
  | .scalar _ (some tag) .plain text =>
    if tag = nullTag then
      if nullWords.contains text then .ok true else .error line
    else .ok false
  | _ => .ok false

/-- An integer below a bound. -/
def integer (bound : Nat) : Reader Nat := Reader.value fun e => integerAt bound e

/-- A count of 64 bits. -/
def count : Reader Nat := integer (Nat.pow 2 64)

/-- A count of 64 bits, or none if the value is null. -/
def optionalCount (line : Nat) : Reader (Option Nat) :=
  Reader.value fun e => do
    if ← isNullAt line e then return none else return some (← integerAt (Nat.pow 2 64) e)

/-- The name that a key is. -/
def keyName : Reader String :=
  Reader.value fun e =>
    match e.kind with
    | .scalar _ _ _ text => return text
    | _ => throw e.line

/-! ### Sections -/

/-- The readers of the values under known keys, which are given the line of the
    mapping and what was read before. -/
abbrev Entries (α : Type) := List (String × (Nat → α → Reader α))

/-- Read the entries up to the end of a mapping. A key that was read before is
    refused at the line of the mapping. -/
def readEntries {α : Type} (entries : Entries α) (line : Nat) : Nat → List String → α → Reader α
  | 0, _, _ => throw line
  | steps + 1, seen, a => do
    if let .mappingEnd := (← Reader.peek).kind then
      let _ ← Reader.next
      return a
    let key ← keyName
    match entries.lookup key with
    | none =>
      Reader.skip
      readEntries entries line steps seen a
    | some reader =>
      if seen.contains key then throw line
      let a ← reader line a
      readEntries entries line steps (key :: seen) a

/-- Read a section over its defaults. -/
def readSection {α : Type} (entries : Entries α) (defaults : α) : Reader α :=
  Reader.value fun e => do
    match e.kind with
    | .mappingStart _ => readEntries entries e.line ((← get).length + 1) [] defaults
    | .scalar _ _ .plain "" => return defaults
    | _ => throw e.line

/-- The section of bin steps. -/
def readBin : Config → Reader Config :=
  readSection [("maxbins", fun _ c => do return { c with maxBins := ← count })]

/-- The section of layouts. -/
def readLayout : Config → Reader Config :=
  readSection [
    ("wrap_columns", fun line c => do return { c with wrapColumns := ← optionalCount line })]

/-- The limits. -/
def readLimits : Limits → Reader Limits :=
  readSection [
    ("max_facets", fun line l => do return { l with maxFacets := ← optionalCount line }),
    ("max_layout_children", fun line l => do
      return { l with maxLayoutChildren := ← optionalCount line }),
    ("max_mark_instances", fun line l => do
      return { l with maxMarkInstances := ← optionalCount line })]

/-- A whole configuration. -/
def readAll : Reader Config :=
  readSection [
    ("version", fun _ c => do return { c with version := ← integer (Nat.pow 2 32) }),
    ("bin", fun _ => readBin),
    ("layout", fun _ => readLayout),
    ("limits", fun _ c => do return { c with limits := ← readLimits c.limits })]
    {}

/-- The configuration of a text before its values are checked. What follows
    the document is refused, at no line in particular. -/
def readText (text : String) : Yaml.Result Config := do
  let document := Yaml.Document.ofText text
  let (config, _) ← (readAll.run document).run document.events
  if let some line := document.fault then throw line
  if document.followed then throw 0
  return config

/-! ### Checks -/

/-- The fault of the values of a configuration, if there is one. -/
def fault? (config : Config) : Option ConfigFault :=
  if config.maxBins = 0 then some .zeroMaxBins
  else if config.wrapColumns = some 0 then some .zeroWrapColumns
  else none

/-- The configuration of a text. -/
def read (text : String) : Except Failure Config :=
  match readText text with
  | .error line => .error (.badConfig line .unreadable)
  | .ok config =>
    match config.fault? with
    | some fault => .error (.badConfig 0 fault)
    | none => .ok config

/-! ### Files -/

/-- The configuration of the file of a name, given its text if it exists. -/
def load (name : String) (text : Option String) : Except Failure Config :=
  match text with
  | none => .error (.missingConfig name)
  | some text => read text

/-- The configuration of a file, or the default if it cannot be loaded. -/
def loadOrDefault (name : String) (text : Option String) : Config :=
  match load name text with
  | .ok config => config
  | .error _ => {}

end Config

end PlotGrammar
