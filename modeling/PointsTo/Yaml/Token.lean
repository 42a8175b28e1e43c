import PointsTo.Yaml.BlockScalar
import PointsTo.Yaml.Scalar
import PointsTo.Yaml.Tag

/-!
# YAML tokens

A text is cut into tokens before its nodes are read. Indentation becomes tokens too: a block opens
where a line is indented deeper than the block around it, and closes where a line is indented less.

A key without a question mark in front shows only by the colon after it. So wherever a key could
start the place is kept in mind; when the colon comes, the key token, and the opening of the mapping
if it is the first key, are put in at that place. Such a key is at most 1024 bytes long and on one
line. A place is *required* to be a key where only a key can stand: at the indentation of the block.
-/

namespace PointsTo.Yaml

inductive Token where
  /-- A directive that tells the version. -/
  | version (major minor : Nat)
  /-- A directive that tells what a handle of tags stands for. -/
  | handle (name : String) (lead : List UInt8)
  | documentStart
  | documentEnd
  | blockSequence
  | blockMapping
  | blockEnd
  | flowSequence
  | flowSequenceEnd
  | flowMapping
  | flowMappingEnd
  /-- The dash before an item of a block. -/
  | dash
  /-- The comma between items of a flow collection. -/
  | comma
  | key
  | value
  | reference (name : String)
  | anchor (name : String)
  | tag (handle : String) (suffix : List UInt8)
  | scalar (style : Style) (text : String)
deriving DecidableEq

/-! ## Directives -/

/-- A number of one to nine digits. -/
def scanVersionNumber? (cs : List Char) : Option (Nat × List Char) :=
  let digits := cs.takeWhile Char.isDigit
  if digits.isEmpty || 9 < digits.length then none
  else some (digits.foldl (fun n c => n * 10 + (c.toNat - '0'.toNat)) 0, cs.dropWhile Char.isDigit)

/-- What follows the percent sign of a directive, to the end of its line. -/
def scanDirective? (cs : List Char) : Option (Token × List Char) := do
  let name := String.ofList (cs.takeWhile isNameChar)
  let rest := cs.dropWhile isNameChar
  if !endsWord rest then failure
  let rest := rest.dropWhile isBlank
  if name == "YAML" then
    let (major, rest) ← scanVersionNumber? rest
    let '.' :: rest := rest | failure
    let (minor, rest) ← scanVersionNumber? rest
    return (.version major minor, ← endLine? rest)
  else if name == "TAG" then
    let (handle, rest) ← scanHandle? rest
    if !rest.head?.any isBlank then failure
    let (lead, rest) ← scanSuffix? true (rest.dropWhile isBlank)
    if !endsWord rest then failure
    return (.handle handle lead, ← endLine? rest)
  else failure

/-! ## The state between tokens -/

/-- A place where a key may have started. -/
structure PendingKey where
  required : Bool
  /-- How many tokens come before it. -/
  position : Nat
  line : Nat
  col : Nat
  width : Nat

/-- Whether the place is too far back for a key that ends at the cursor. -/
def PendingKey.isStale (k : PendingKey) (cur : Cursor) : Bool :=
  k.line < cur.line || k.width + 1024 < cur.width

structure Lexer where
  cur : Cursor
  tokens : Array Token := #[]
  /-- The columns of the open blocks, innermost first. -/
  indents : List Nat := []
  /-- The pending key between the innermost brackets. -/
  key : Option PendingKey := none
  /-- The pending keys around each open bracket, innermost first. -/
  outerKeys : List (Option PendingKey) := []
  /-- Whether a key may start here. -/
  keyAllowed : Bool := true

namespace Lexer

/-- Whether the place is between brackets. -/
def inFlow (lx : Lexer) : Bool :=
  !lx.outerKeys.isEmpty

/-- The least column of what belongs to the innermost block. -/
def floor (lx : Lexer) : Nat :=
  match lx.indents with
  | [] => 0
  | n :: _ => n + 1

/-- Adds a token and goes on at `rest`. -/
def emit (lx : Lexer) (t : Token) (rest : List Char) : Lexer :=
  { lx with tokens := lx.tokens.push t, cur := lx.cur.moveTo rest }

/-- Opens a block in a column deeper than the blocks around it, before the token at `position`. -/
def openBlock (lx : Lexer) (t : Token) (col position : Nat) : Lexer :=
  if lx.inFlow || !(lx.indents.head?.all fun n => decide (n < col)) then lx
  else { lx with
    indents := col :: lx.indents
    tokens := lx.tokens.insertIdxIfInBounds position t }

/-- Closes the innermost blocks in the columns that `closes` holds of. -/
def closeBlocks (lx : Lexer) (closes : Nat → Bool) : Lexer :=
  if lx.inFlow then lx
  else
    let closed := lx.indents.takeWhile closes
    { lx with
      indents := lx.indents.dropWhile closes
      tokens := lx.tokens ++ closed.map fun _ => Token.blockEnd }

/-- Gives up the pending key, unless a key is required there. -/
def forgetKey? (lx : Lexer) : Option Lexer :=
  if lx.key.any (·.required) then none else some { lx with key := none }

/-- Keeps this place in mind for a key, if one may start here. -/
def saveKey? (lx : Lexer) : Option Lexer := do
  if !lx.keyAllowed then return lx
  let lx ← lx.forgetKey?
  let required := !lx.inFlow && lx.indents.head? == some lx.cur.col
  let key : PendingKey :=
    ⟨required, lx.tokens.size, lx.cur.line, lx.cur.col, lx.cur.width⟩
  return { lx with key := some key }

/-- Gives up the pending keys that are too far back. -/
def dropStaleKeys? (lx : Lexer) : Option Lexer := do
  let fresh (k : Option PendingKey) : Option (Option PendingKey) :=
    if !(k.any fun p => p.isStale lx.cur) then some k
    else if k.any (·.required) then none
    else some none
  let key ← fresh lx.key
  let outerKeys ← lx.outerKeys.mapM fresh
  return { lx with key, outerKeys }

/-! ## One token -/

def directive? (lx : Lexer) (cs : List Char) : Option Lexer := do
  let lx ← (lx.closeBlocks fun _ => true).forgetKey?
  let (t, rest) ← scanDirective? cs
  return { lx.emit t rest with keyAllowed := false }

def marker? (lx : Lexer) (t : Token) : Option Lexer := do
  let lx ← (lx.closeBlocks fun _ => true).forgetKey?
  return { lx.emit t (lx.cur.rest.drop 3) with keyAllowed := false }

def openFlow? (lx : Lexer) (t : Token) (cs : List Char) : Option Lexer := do
  let lx ← lx.saveKey?
  let lx := lx.emit t cs
  return { lx with key := none, outerKeys := lx.key :: lx.outerKeys, keyAllowed := true }

def closeFlow? (lx : Lexer) (t : Token) (cs : List Char) : Option Lexer := do
  let lx ← lx.forgetKey?
  let lx := lx.emit t cs
  return { lx with
    key := lx.outerKeys.head?.join, outerKeys := lx.outerKeys.tail, keyAllowed := false }

def comma? (lx : Lexer) (cs : List Char) : Option Lexer := do
  let lx ← lx.forgetKey?
  return { lx.emit .comma cs with keyAllowed := true }

/-- Opens a block for a token that starts an item or an entry, where one may start. -/
def openHere? (lx : Lexer) (t : Token) : Option Lexer :=
  if lx.inFlow then some lx
  else if lx.keyAllowed then some (lx.openBlock t lx.cur.col lx.tokens.size)
  else none

def dash? (lx : Lexer) (cs : List Char) : Option Lexer := do
  let lx ← (← lx.openHere? .blockSequence).forgetKey?
  return { lx.emit .dash cs with keyAllowed := true }

/-- The question mark before a key. -/
def explicitKey? (lx : Lexer) (cs : List Char) : Option Lexer := do
  let lx ← (← lx.openHere? .blockMapping).forgetKey?
  return { lx.emit .key cs with keyAllowed := !lx.inFlow }

/-- The colon before a value, which makes the pending key a key. -/
def value? (lx : Lexer) (cs : List Char) : Option Lexer :=
  match lx.key with
  | some k =>
    let lx := { lx with tokens := lx.tokens.insertIdxIfInBounds k.position .key }
    let lx := lx.openBlock .blockMapping k.col k.position
    some { lx.emit .value cs with key := none, keyAllowed := false }
  | none => do
    let lx ← lx.openHere? .blockMapping
    return { lx.emit .value cs with keyAllowed := !lx.inFlow }

/-- Whether a name can end before this character, blanks and breaks aside. -/
def endsName (c : Char) : Bool :=
  ['?', ':', ',', ']', '\x7d', '%', '@', '\x60'].contains c

/-- The name of an anchor or an alias. -/
def name? (lx : Lexer) (t : String → Token) (cs : List Char) : Option Lexer := do
  let lx ← lx.saveKey?
  let name := cs.takeWhile isNameChar
  let rest := cs.dropWhile isNameChar
  if name.isEmpty || !(endsWord rest || rest.head?.any endsName) then failure
  return { lx.emit (t (String.ofList name)) rest with keyAllowed := false }

def tag? (lx : Lexer) (cs : List Char) : Option Lexer := do
  let lx ← lx.saveKey?
  let (handle, suffix, rest) ← scanTag? cs
  if !(endsWord rest || (lx.inFlow && rest.head? == some ',')) then failure
  return { lx.emit (.tag handle suffix) rest with keyAllowed := false }

def block? (lx : Lexer) (style : Style) (cs : List Char) : Option Lexer := do
  let lx ← lx.forgetKey?
  let (text, rest) ← scanBlock? (style == .literal) lx.floor cs
  return { lx.emit (.scalar style (String.ofList text)) rest with keyAllowed := true }

def quoted? (lx : Lexer) (scan : Option (List Char × List Char)) : Option Lexer := do
  let lx ← lx.saveKey?
  let (text, rest) ← scan
  return { lx.emit (.scalar .quoted (String.ofList text)) rest with keyAllowed := false }

/-- A plain scalar. After a break a key may start again. -/
def plain? (lx : Lexer) : Option Lexer := do
  let lx ← lx.saveKey?
  let (text, broke, rest) ← scanPlain? lx.inFlow lx.floor lx.cur.rest lx.cur.col {} []
  return { lx.emit (.scalar .plain (String.ofList text)) rest with keyAllowed := broke }

/-- The token that starts with this character. -/
def token? (lx : Lexer) (c : Char) (cs : List Char) : Option Lexer :=
  let col := lx.cur.col
  let flow := lx.inFlow
  if col == 0 && c == '%' then lx.directive? cs
  else if atMarker '-' col (c :: cs) then lx.marker? .documentStart
  else if atMarker '.' col (c :: cs) then lx.marker? .documentEnd
  else if c == '[' then lx.openFlow? .flowSequence cs
  else if c == '\x7b' then lx.openFlow? .flowMapping cs
  else if c == ']' then lx.closeFlow? .flowSequenceEnd cs
  else if c == '\x7d' then lx.closeFlow? .flowMappingEnd cs
  else if c == ',' then lx.comma? cs
  else if c == '-' && endsWord cs then lx.dash? cs
  else if c == '?' && (flow || endsWord cs) then lx.explicitKey? cs
  else if c == ':' && (flow || endsWord cs) then lx.value? cs
  else if c == '*' then lx.name? .reference cs
  else if c == '&' then lx.name? .anchor cs
  else if c == '!' then lx.tag? cs
  else if c == '|' && !flow then lx.block? .literal cs
  else if c == '>' && !flow then lx.block? .folded cs
  else if c == '\'' then lx.quoted? (scanSingle? cs (col + 1) {} [])
  else if c == '"' then lx.quoted? (scanDouble? cs.length cs (col + 1) {} [])
  else if startsPlain flow (c :: cs) then lx.plain?
  else none

/-! ## All tokens -/

/-- Past blanks, comments and breaks, with whether a key may start after them. A byte order mark may
start a line. Outside of brackets a break lets a key start, and where a key may start a tab is no
blank. -/
def skipGap (flow : Bool) : List Char → Nat → Bool → Bool → List Char × Bool
  | [], _, keyAllowed, _ => ([], keyAllowed)
  | c :: cs, col, keyAllowed, comment =>
    if isBreak c then skipGap flow cs 0 (keyAllowed || !flow) false
    else if comment || c == '#' then skipGap flow cs (col + 1) keyAllowed true
    else if c == ' ' || (c == '\t' && (flow || !keyAllowed)) || (c == '\uFEFF' && col == 0) then
      skipGap flow cs (col + 1) keyAllowed false
    else (c :: cs, keyAllowed)

/-- To the next token: past the gap, with the blocks closed that end there. -/
def advance? (lx : Lexer) : Option Lexer := do
  let (rest, keyAllowed) := skipGap lx.inFlow lx.cur.rest lx.cur.col lx.keyAllowed false
  let lx ← { lx with cur := lx.cur.moveTo rest, keyAllowed }.dropStaleKeys?
  return lx.closeBlocks fun n => decide (lx.cur.col < n)

/-- All tokens to the end. Every token but those of blocks takes a character, so one more step than
there are characters is enough. -/
def run? : Nat → Lexer → Option (Array Token)
  | 0, _ => none
  | n + 1, lx => do
    let lx ← lx.advance?
    match lx.cur.rest with
    | [] => return (← (lx.closeBlocks fun _ => true).forgetKey?).tokens
    | c :: cs => run? n (← lx.token? c cs)

end Lexer

/-- The tokens of a text. -/
def tokens? (cs : List Char) : Option (List Token) :=
  (Lexer.run? (cs.length + 1) { cur := { rest := cs } }).map Array.toList

end PointsTo.Yaml
