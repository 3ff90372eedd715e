import LivePreview.Yaml.Scalar
import LivePreview.Yaml.Scanner

/-!
# YAML documents

The nodes of a YAML stream, with anchors and tags resolved. `documents` reads a whole stream and
refuses it when any part of it is at fault.
-/
namespace LivePreview.Yaml

inductive Node where
  | scalar (value : Scalar)
  | sequence (items : List Node)
  /-- Entries in the order in which their keys were last given. -/
  | mapping (entries : List (Node × Node))
  /-- A node under a tag of its own. -/
  | tagged (node : Node)
  /-- An unquoted scalar that does not fit its tag, or a node that refers to itself. -/
  | invalid
deriving Repr

namespace Node

/-- The text of a scalar that is neither a number nor a truth value nor null. -/
def text? : Node → Option String
  | scalar (.text value) => some value
  | _ => none

/-- The text of any scalar but null. -/
def scalarText? : Node → Option String
  | scalar value => value.asText?
  | _ => none

/-- The text of a scalar that is text or a number. -/
def versionText? : Node → Option String
  | scalar (.boolean _) => none
  | node => node.scalarText?

def items? : Node → Option (List Node)
  | sequence items => some items
  | _ => none

def entries? : Node → Option (List (Node × Node))
  | mapping entries => some entries
  | _ => none

def isInvalid : Node → Bool
  | invalid => true
  | _ => false

/-- The value at a key that is text. -/
def field? (name : String) (entries : List (Node × Node)) : Option Node :=
  (entries.find? fun entry => entry.1.text? = some name).map (·.2)

/-- Adds an entry. It takes the place of an earlier one with the same text as its key; keys that are
no text cannot be looked up and are kept as they come. -/
def addEntry (entries : List (Node × Node)) (key value : Node) : List (Node × Node) :=
  let others :=
    match key.text? with
    | some text => entries.filter fun entry => entry.1.text? ≠ some text
    | none => entries
  others ++ [(key, value)]

/-- The entries of a mapping whose keys and values alternate in the list. An invalid node does not
serve as a key: the one behind it does. -/
def pairUp (entries : List (Node × Node)) : List Node → List (Node × Node)
  | [] => entries
  | [_] => entries
  | key :: value :: rest =>
    if key.isInvalid then pairUp entries (value :: rest)
    else pairUp (addEntry entries key value) rest

end Node

/-! ### Composing nodes from tokens -/

/-- What the tokens read so far have declared. -/
structure Composer where
  rest : List TokenKind
  /-- The prefixes of tag handles. -/
  tags : List (String × String) := []
  /-- The number of the node last given each name. -/
  anchors : List (String × Nat) := []
  nextAnchor : Nat := 0
  /-- Finished nodes by their number. -/
  nodes : List (Nat × Node) := []

abbrev Compose := StateT Composer (Except Fault)

namespace Compose

def peek : Compose TokenKind := return (← get).rest.headD .streamEnd

def skip : Compose Unit := modify fun c => { c with rest := c.rest.tail }

/-- A resolved tag. -/
structure Tag where
  handle : String
  suffix : String

def coreHandle : String := "tag:yaml.org,2002:"

def resolveTag (handle suffix : String) : Compose Tag := do
  let declared (handle : String) : Compose (Option String) := do
    return ((← get).tags.find? (·.1 = handle)).map (·.2)
  if handle = "!!" then return ⟨(← declared "!!").getD coreHandle, suffix⟩
  else if handle = "" && suffix = "!" then return ⟨(← declared "").getD "", suffix⟩
  else
    match ← declared handle with
    | some tagPrefix => return ⟨tagPrefix, suffix⟩
    | none =>
      if handle.length ≥ 2 && handle.toList.getLast? = some '!' then throw .unknownTagHandle
      return ⟨handle, suffix⟩

/-- The properties in front of a node. -/
structure Properties where
  anchor : Option Nat := none
  tag : Option Tag := none

def registerAnchor (name : String) : Compose Nat := do
  let c ← get
  set { c with
    anchors := (name, c.nextAnchor) :: c.anchors
    nextAnchor := c.nextAnchor + 1 }
  return c.nextAnchor

def anchor? : Compose (Option Nat) := do
  match ← peek with
  | .anchor name => skip; return some (← registerAnchor name)
  | _ => return none

def tag? : Compose (Option Tag) := do
  match ← peek with
  | .tag handle suffix => skip; return some (← resolveTag handle suffix)
  | _ => return none

/-- An anchor and a tag, at most one of each, in either order. -/
def properties : Compose Properties := do
  match ← anchor? with
  | some anchor => return ⟨some anchor, ← tag?⟩
  | none =>
    match ← tag? with
    | some tag => return ⟨← anchor?, some tag⟩
    | none => return {}

/-- Puts a collection under its tag, unless the tag belongs to the core schema. -/
def underTag (tag : Option Tag) (node : Node) : Node :=
  match tag with
  | some tag => if tag.handle = coreHandle then node else .tagged node
  | none => node

def scalarNode (style : ScalarStyle) (text : String) (tag : Option Tag) : Node :=
  match tag with
  | none => .scalar (if style = .plain then .ofPlain text else .text text)
  | some tag =>
    if tag.handle ≠ coreHandle then .tagged (.scalar (.text text))
    else if style ≠ .plain then .scalar (.text text)
    else ((Scalar.ofTagged? tag.suffix text).map Node.scalar).getD .invalid

def null : Node := .scalar .null

/-- A node, or null in front of a token at which it would have ended. -/
def orNull (ends : List TokenKind) (node : Compose Node) : Compose Node := do
  if (← peek) ∈ ends then return null else node

/-- The node behind an indicator, null without the indicator. -/
def behind (indicator : TokenKind) (ends : List TokenKind) (node : Compose Node) :
    Compose Node := do
  if (← peek) = indicator then
    skip
    orNull ends node
  else return null

/-- Remembers a finished node under its anchor. -/
def finish (properties : Properties) (node : Node) : Compose Node := do
  if let some anchor := properties.anchor then
    modify fun c => { c with nodes := (anchor, node) :: c.nodes }
  return node

def finishScalar (properties : Properties) (style : ScalarStyle) (text : String) : Compose Node :=
  finish properties (scalarNode style text properties.tag)

def finishSequence (properties : Properties) (items : List Node) : Compose Node :=
  finish properties (underTag properties.tag (.sequence items))

def finishMapping (properties : Properties) (nodes : List Node) : Compose Node :=
  finish properties (underTag properties.tag (.mapping (Node.pairUp [] nodes)))

mutual

/-- A node. Block collections need a place where they are allowed; `indentless` allows a sequence
that is not indented further than its key. -/
def node (block indentless : Bool) : Nat → Compose Node
  | 0 => throw .tooDeep
  | fuel + 1 => do
    if let .reference name ← peek then
      skip
      let c ← get
      match c.anchors.find? (·.1 = name) with
      | none => throw .unknownAnchor
      | some (_, anchor) => return ((c.nodes.find? (·.1 = anchor)).map (·.2)).getD .invalid
    let properties ← properties
    match ← peek with
    | .scalar style text => skip; finishScalar properties style text
    | .flowSequenceStart => skip; finishSequence properties (← flowItems true fuel)
    | .flowMappingStart => skip; finishMapping properties (← flowEntries true fuel)
    | .blockEntry =>
      if indentless then finishSequence properties (← indentlessItems fuel)
      else missing properties
    | .blockSequenceStart =>
      if block then skip; finishSequence properties (← blockItems fuel) else missing properties
    | .blockMappingStart =>
      if block then skip; finishMapping properties (← blockEntries fuel) else missing properties
    | _ => missing properties

/-- No node stands here. Properties may be there on their own. -/
def missing (properties : Properties) : Compose Node :=
  if properties.anchor.isSome || properties.tag.isSome then finishScalar properties .plain ""
  else throw .missingNode

def blockItems : Nat → Compose (List Node)
  | 0 => throw .tooDeep
  | fuel + 1 => do
    match ← peek with
    | .blockEnd => skip; return []
    | .blockEntry =>
      skip
      let item ← orNull [.blockEntry, .blockEnd] (node true false fuel)
      return item :: (← blockItems fuel)
    | _ => throw .badCollection

def indentlessItems : Nat → Compose (List Node)
  | 0 => throw .tooDeep
  | fuel + 1 => do
    match ← peek with
    | .blockEntry =>
      skip
      let item ← orNull [.blockEntry, .key, .value, .blockEnd] (node true false fuel)
      return item :: (← indentlessItems fuel)
    | _ => return []

/-- Keys and values of a block mapping, alternating. -/
def blockEntries : Nat → Compose (List Node)
  | 0 => throw .tooDeep
  | fuel + 1 => do
    match ← peek with
    | .blockEnd => skip; return []
    | .key | .value =>
      let key ← behind .key [.key, .value, .blockEnd] (node true true fuel)
      let value ← behind .value [.key, .value, .blockEnd] (node true true fuel)
      return key :: value :: (← blockEntries fuel)
    | _ => throw .badCollection

/-- The items of a flow sequence up to its end; `first` when no comma has to precede. -/
def flowItems (first : Bool) : Nat → Compose (List Node)
  | 0 => throw .tooDeep
  | fuel + 1 => do
    if (← peek) = .flowSequenceEnd then
      skip
      return []
    if !first then
      if (← peek) ≠ .flowEntry then throw .badCollection
      skip
    match ← peek with
    | .flowSequenceEnd => skip; return []
    | .key =>
      skip
      let pair ← flowPair fuel
      return .mapping (Node.pairUp [] pair) :: (← flowItems false fuel)
    | _ =>
      let item ← node false false fuel
      return item :: (← flowItems false fuel)

/-- The key and value of a single pair in a flow sequence. -/
def flowPair : Nat → Compose (List Node)
  | 0 => throw .tooDeep
  | fuel + 1 => do
    let key ← match ← peek with
      | .value | .flowEntry | .flowSequenceEnd => skip; pure null
      | _ => node false false fuel
    let value ← behind .value [.flowEntry, .flowSequenceEnd] (node false false fuel)
    return [key, value]

/-- Keys and values of a flow mapping up to its end, alternating. -/
def flowEntries (first : Bool) : Nat → Compose (List Node)
  | 0 => throw .tooDeep
  | fuel + 1 => do
    if (← peek) = .flowMappingEnd then
      skip
      return []
    if !first then
      if (← peek) ≠ .flowEntry then throw .badCollection
      skip
    let value := behind .value [.flowEntry, .flowMappingEnd] (node false false fuel)
    match ← peek with
    | .flowMappingEnd => skip; return []
    | .key =>
      skip
      let key ← orNull [.value, .flowEntry, .flowMappingEnd] (node false false fuel)
      let value ← value
      return key :: value :: (← flowEntries false fuel)
    | .value =>
      let value ← value
      return null :: value :: (← flowEntries false fuel)
    | _ =>
      let key ← node false false fuel
      return key :: null :: (← flowEntries false fuel)

end

/-- The directives in front of a document. Each takes the place of all before it: only a tag handle
that the last one declares is known in the document. -/
def directives (hasVersion : Bool) : Nat → Compose Unit
  | 0 => return
  | fuel + 1 => do
    let declare (tags : List (String × String)) : Compose Unit :=
      modify fun c => { c with tags, rest := c.rest.tail }
    match ← peek with
    | .versionDirective =>
      if hasVersion then throw .badDirective
      declare []
      directives true fuel
    | .tagDirective handle tagPrefix =>
      declare [(handle, tagPrefix)]
      directives hasVersion fuel
    | .reservedDirective =>
      declare []
      directives hasVersion fuel
    | _ => return

def isDirective : TokenKind → Bool
  | .versionDirective | .tagDirective _ _ | .reservedDirective => true
  | _ => false

def skipDocumentEnds : Nat → Compose Unit
  | 0 => return
  | fuel + 1 => do
    if (← peek) = .documentEnd then
      skip
      skipDocumentEnds fuel

/-- The documents of the stream. `implicit` allows one that has no start marker. -/
def documents (implicit : Bool) : Nat → Compose (List Node)
  | 0 => return []
  | fuel + 1 => do
    skipDocumentEnds fuel
    let bound := 4 * (← get).rest.length + 8
    let start ← peek
    if start = .streamEnd then return []
    let document ←
      if implicit && start ≠ .documentStart && !isDirective start then node true false bound
      else do
        directives false bound
        if (← peek) ≠ .documentStart then throw .badDocumentMarker
        skip
        let content ← peek
        if content ∈ [.documentStart, .documentEnd, .streamEnd] || isDirective content then
          pure null
        else node true false bound
    let ended := (← peek) = .documentEnd
    if ended then skip
    else if isDirective (← peek) then throw .badDirective
    modify fun c => { c with tags := [], anchors := [] }
    return document :: (← documents ended fuel)

end Compose

/-- The documents of a YAML stream. -/
def documents (text : String) : Except Fault (List Node) := do
  let tokens ← tokens text
  let (documents, _) ←
    (Compose.documents true (tokens.length + 1)).run { rest := tokens.map (·.kind) }
  return documents

end LivePreview.Yaml
