import PointsTo.Yaml.Node
import PointsTo.Yaml.Token

/-!
# Reading YAML

The nodes of a document, read from its tokens. A text holds one document, with directives before it
and document markers around it.

The readers call each other at most four times before they take a token, so four times the number of
tokens bounds the nesting; that bound is their fuel.
-/

namespace PointsTo.Yaml

/-- The tokens ahead, and the names of the anchors met so far with their numbers. -/
structure Ahead where
  tokens : List Token
  anchors : List (String × Nat) := []

abbrev Reading := StateT Ahead Option

namespace Reading

def peek : Reading (Option Token) :=
  return (← get).tokens.head?

/-- Past the next token. -/
def drop : Reading Unit :=
  modify fun s => { s with tokens := s.tokens.drop 1 }

/-- Whether the next token is one of these. -/
def nextIn (ts : List Token) : Reading Bool :=
  return (← peek).any ts.contains

/-- Past that token, which has to be next. -/
def expect (t : Token) : Reading Unit := do
  if ← nextIn [t] then drop else failure

/-! ## Properties -/

/-- Numbers an anchor by how many names are known, and lets its name stand for it from now on. -/
def nameAnchor (name : String) : Reading Nat := do
  let s ← get
  let number := s.anchors.length
  set { s with anchors := (name, number) :: s.anchors.filter fun a => a.1 != name }
  return number

def anchor : Reading (Option Nat) := do
  match ← peek with
  | some (.anchor name) =>
    drop
    return some (← nameAnchor name)
  | _ => return none

/-- A tag in full, with its handle looked up. -/
def tag (handles : List (String × List UInt8)) : Reading (Option Tag) := do
  match ← peek with
  | some (.tag handle suffix) =>
    drop
    if handle.isEmpty then return some ⟨suffix⟩
    let some lead := handles.lookup handle | failure
    return some ⟨lead ++ suffix⟩
  | _ => return none

/-- A tag and an anchor, in either order. -/
def properties (handles : List (String × List UInt8)) : Reading Properties := do
  match ← tag handles with
  | some t => return { tag := some t, anchor := ← anchor }
  | none =>
    match ← anchor with
    | some a => return { tag := ← tag handles, anchor := some a }
    | none => return {}

/-! ## Nodes -/

/-- A node without content, which needs a tag or an anchor to be one. -/
def bare (props : Properties) : Reading Node := do
  if props.tag.isNone && props.anchor.isNone then failure
  return .scalar props .plain ""

mutual

/-- A node, in block style only if `block` says so. A sequence may stand in the column of the
mapping around it where `sameColumn` says so. -/
def node (handles : List (String × List UInt8)) (block sameColumn : Bool) : Nat → Reading Node
  | 0 => failure
  | n + 1 => do
    if let some (.reference name) ← peek then
      drop
      let some number := (← get).anchors.lookup name | failure
      return .reference number
    let props ← properties handles
    match ← peek with
    | some (.scalar style text) =>
      drop
      return .scalar props style text
    | some .flowSequence =>
      drop
      return .sequence props (← flowItems handles true n)
    | some .flowMapping =>
      drop
      return .mapping props (← flowEntries handles true n)
    | some .dash =>
      if sameColumn then return .sequence props (← sameColumnItems handles n)
      else bare props
    | some .blockSequence =>
      if block then
        drop
        return .sequence props (← blockItems handles n)
      else bare props
    | some .blockMapping =>
      if block then
        drop
        return .mapping props (← blockEntries handles n)
      else bare props
    | _ => bare props

/-- A node, or a missing one before one of the tokens that cannot start it. -/
def nodeUnless (handles : List (String × List UInt8)) (block sameColumn : Bool)
    (ends : List Token) : Nat → Reading Node
  | 0 => failure
  | n + 1 => do
    if ← nextIn ends then return .missing else node handles block sameColumn n

/-- The items of a block sequence up to its end. -/
def blockItems (handles : List (String × List UInt8)) : Nat → Reading (List Node)
  | 0 => failure
  | n + 1 => do
    if ← nextIn [.blockEnd] then
      drop
      return []
    expect .dash
    let item ← nodeUnless handles true false [.dash, .blockEnd] n
    return item :: (← blockItems handles n)

/-- The items of a block sequence in the column of the mapping around it. -/
def sameColumnItems (handles : List (String × List UInt8)) : Nat → Reading (List Node)
  | 0 => failure
  | n + 1 => do
    if !(← nextIn [.dash]) then return []
    drop
    let item ← nodeUnless handles true false [.dash, .key, .value, .blockEnd] n
    return item :: (← sameColumnItems handles n)

/-- The entries of a block mapping up to its end. -/
def blockEntries (handles : List (String × List UInt8)) : Nat → Reading (List (Node × Node))
  | 0 => failure
  | n + 1 => do
    if ← nextIn [.blockEnd] then
      drop
      return []
    expect .key
    let key ← nodeUnless handles true true [.key, .value, .blockEnd] n
    let value ← entryValue handles true [.key, .value, .blockEnd] n
    return (key, value) :: (← blockEntries handles n)

/-- The value of an entry after its colon, missing if there is no colon. -/
def entryValue (handles : List (String × List UInt8)) (block : Bool) (ends : List Token) :
    Nat → Reading Node
  | 0 => failure
  | n + 1 => do
    if !(← nextIn [.value]) then return .missing
    drop
    nodeUnless handles block block ends n

/-- The items of a flow sequence up to its bracket. A key makes an item a mapping of one entry; if
the key is missing, the token after it does not count. -/
def flowItems (handles : List (String × List UInt8)) (first : Bool) : Nat → Reading (List Node)
  | 0 => failure
  | n + 1 => do
    if !first && !(← nextIn [.flowSequenceEnd]) then expect .comma
    match ← peek with
    | some .flowSequenceEnd =>
      drop
      return []
    | some .key =>
      drop
      let ends := [.value, .comma, .flowSequenceEnd]
      let missing ← nextIn ends
      let key ← nodeUnless handles false false ends n
      if missing then drop
      let value ← entryValue handles false [.comma, .flowSequenceEnd] n
      return .mapping {} [(key, value)] :: (← flowItems handles false n)
    | _ =>
      let item ← node handles false false n
      return item :: (← flowItems handles false n)

/-- The entries of a flow mapping up to its bracket. -/
def flowEntries (handles : List (String × List UInt8)) (first : Bool) :
    Nat → Reading (List (Node × Node))
  | 0 => failure
  | n + 1 => do
    if !first && !(← nextIn [.flowMappingEnd]) then expect .comma
    match ← peek with
    | some .flowMappingEnd =>
      drop
      return []
    | some .key =>
      drop
      let key ← nodeUnless handles false false [.value, .comma, .flowMappingEnd] n
      let value ← entryValue handles false [.comma, .flowMappingEnd] n
      return (key, value) :: (← flowEntries handles false n)
    | _ =>
      let key ← node handles false false n
      return (key, .missing) :: (← flowEntries handles false n)

end

/-! ## Documents -/

/-- The directives ahead, at most one of them for the version and one for every handle. -/
def directives : Nat → Bool → List (String × List UInt8) → Reading (List (String × List UInt8))
  | 0, _, _ => failure
  | n + 1, versioned, handles => do
    match ← peek with
    | some (.version major minor) =>
      if versioned || major != 1 || (minor != 1 && minor != 2) then failure
      drop
      directives n true handles
    | some (.handle name lead) =>
      if (handles.lookup name).isSome then failure
      drop
      directives n versioned ((name, lead) :: handles)
    | _ => return handles

/-- Whether there is no content next. -/
def atEdge : Reading Bool := do
  match ← peek with
  | none | some (.version ..) | some (.handle ..) | some .documentStart | some .documentEnd =>
    return true
  | _ => return false

/-- A document: its content alone, or directives, a marker and its content. -/
def document (fuel : Nat) : Reading Node := do
  if !(← atEdge) then node Tag.standardHandles true false fuel
  else
    let handles ← directives fuel false []
    expect .documentStart
    if ← atEdge then return .missing
    else node (handles ++ Tag.standardHandles) true false fuel

/-- Past the markers that end a document. -/
def documentEnds : Nat → Reading Unit
  | 0 => failure
  | n + 1 => do
    if ← nextIn [.documentEnd] then
      drop
      documentEnds n

/-- The one document of all tokens. -/
def onlyDocument (fuel : Nat) : Reading Node := do
  let root ← document fuel
  documentEnds fuel
  if (← peek).isSome then failure
  return root

end Reading

/-- The one document that a text holds. -/
def read? (text : String) : Option Node := do
  let cs := text.toList
  if !cs.all isAllowed then failure
  let tokens ← tokens? (breaks cs)
  let fuel := 4 * tokens.length + 4
  (Reading.onlyDocument fuel).run' { tokens }

end PointsTo.Yaml
