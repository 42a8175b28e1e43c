import PointsTo.Yaml.Cursor

/-!
# YAML scalars within lines

The three ways of writing a scalar that needs no block of its own: plain, between single quotes and
between double quotes. Line breaks inside such a scalar are folded: one break is a space, more of
them are all but the first, and the blanks around them are dropped.

The scanners work on the rest of the text with the column of its first character, and answer the
scalar with what follows it.
-/

namespace PointsTo.Yaml

/-- How a scalar is written. Which quotes it stands between makes no difference to what it is. -/
inductive Style where
  | plain
  | quoted
  /-- A block that keeps its breaks. -/
  | literal
  /-- A block with its breaks folded. -/
  | folded
deriving DecidableEq

/-! ## Folding -/

/-- Blanks and breaks seen since the last word of a scalar. -/
structure Gap where
  blanks : List Char := []
  /-- The first break; nothing at all when the break was escaped. -/
  first : Option (List Char) := none
  more : List Char := []

namespace Gap

/-- Whether a break was among them. -/
def broke (g : Gap) : Bool :=
  g.first.isSome

def isEmpty (g : Gap) : Bool :=
  g.blanks.isEmpty && !g.broke

def addBlank (g : Gap) (c : Char) : Gap :=
  if g.broke then g else { g with blanks := g.blanks ++ [c] }

def addBreak (g : Gap) (c : Char) : Gap :=
  match g.first with
  | none => { first := some [c] }
  | some _ => { g with more := g.more ++ [c] }

/-- What the gap stands for once another word follows. -/
def fold (g : Gap) : List Char :=
  match g.first with
  | none => g.blanks
  | some ['\n'] => if g.more.isEmpty then [' '] else g.more
  | some bs => bs ++ g.more

end Gap

/-! ## Plain -/

/-- The characters that end a plain scalar inside a flow collection. -/
def isFlowIndicator (c : Char) : Bool :=
  c == ',' || c == '[' || c == ']' || c == '\x7b' || c == '\x7d'

/-- The characters that start something other than a plain scalar. -/
def isIndicator (c : Char) : Bool :=
  isFlowIndicator c ||
    ['#', '&', '*', '!', '|', '>', '\'', '"', '%', '@', '\x60'].contains c

/-- Whether a plain scalar can start here. -/
def startsPlain (flow : Bool) : List Char → Bool
  | [] => false
  | c :: cs =>
    if c == '-' then !endsWord cs
    else if c == '?' || c == ':' then !flow && !endsWord cs
    else !(isBlank c || isBreak c || isIndicator c)

/-- A plain scalar: the words up to a comment, a colon that ends a key, a document edge or a line
that is indented less than `floor`. Such a line must not be indented by a tab, and between brackets
a colon must not stand directly before an indicator. Answers the scalar, whether breaks follow it,
and what comes after them. -/
def scanPlain? (flow : Bool) (floor : Nat) :
    List Char → Nat → Gap → List Char → Option (List Char × Bool × List Char)
  | [], _, gap, acc => some (acc.reverse, gap.broke, [])
  | c :: cs, col, gap, acc =>
    let stop := some (acc.reverse, gap.broke, c :: cs)
    if isBreak c then scanPlain? flow floor cs 0 (gap.addBreak c) acc
    else if isBlank c then
      if c == '\t' && gap.broke && col < floor then none
      else scanPlain? flow floor cs (col + 1) (gap.addBlank c) acc
    else if gap.broke && !flow && col < floor then stop
    else if atDocumentEdge col (c :: cs) then stop
    else if c == '#' && !gap.isEmpty then stop
    else if flow && c == ':' && cs.head?.any (fun d => isFlowIndicator d || d == '?') then none
    else if c == ':' && endsWord cs then stop
    else if flow && isFlowIndicator c then stop
    else scanPlain? flow floor cs (col + 1) {} (c :: (gap.fold.reverse ++ acc))

/-! ## Quoted -/

/-- What follows the opening single quote. A quote inside is written twice. -/
def scanSingle? : List Char → Nat → Gap → List Char → Option (List Char × List Char)
  | [], _, _, _ => none
  | c :: cs, col, gap, acc =>
    if isBreak c then scanSingle? cs 0 (gap.addBreak c) acc
    else if isBlank c then scanSingle? cs (col + 1) (gap.addBlank c) acc
    else if atDocumentEdge col (c :: cs) then none
    else if c == '\'' then
      match cs with
      | '\'' :: cs => scanSingle? cs (col + 2) {} ('\'' :: (gap.fold.reverse ++ acc))
      | cs => some ((gap.fold.reverse ++ acc).reverse, cs)
    else scanSingle? cs (col + 1) {} (c :: (gap.fold.reverse ++ acc))

/-- The character whose code point `n` digits spell. -/
def hexChar? (digits : List Char) (n : Nat) : Option Char := do
  if digits.length < n then failure
  let ds ← (digits.take n).mapM hexDigit?
  let code := ds.foldl (fun acc d => acc * 16 + d) 0
  if code.isValidChar then some (Char.ofNat code) else none

/-- The escapes of one letter. -/
def simpleEscape? (c : Char) : Option Char :=
  match c with
  | '0' => some '\x00'
  | 'a' => some '\x07'
  | 'b' => some '\x08'
  | 't' | '\t' => some '\t'
  | 'n' => some '\n'
  | 'v' => some '\x0b'
  | 'f' => some '\x0c'
  | 'r' => some '\r'
  | 'e' => some '\x1b'
  | ' ' => some ' '
  | '"' => some '"'
  | '/' => some '/'
  | '\\' => some '\\'
  | 'N' => some '\u0085'
  | '_' => some '\u00a0'
  | 'L' => some '\u2028'
  | 'P' => some '\u2029'
  | _ => none

/-- How many digits the escapes by code point take. -/
def escapeDigits? (c : Char) : Option Nat :=
  match c with
  | 'x' => some 2
  | 'u' => some 4
  | 'U' => some 8
  | _ => none

/-- What follows the opening double quote. Each step takes at least one character, so as many steps
as there are characters are enough. -/
def scanDouble? : Nat → List Char → Nat → Gap → List Char → Option (List Char × List Char)
  | 0, _, _, _, _ => none
  | _ + 1, [], _, _, _ => none
  | n + 1, c :: cs, col, gap, acc =>
    if isBreak c then scanDouble? n cs 0 (gap.addBreak c) acc
    else if isBlank c then scanDouble? n cs (col + 1) (gap.addBlank c) acc
    else if atDocumentEdge col (c :: cs) then none
    else
      let acc := gap.fold.reverse ++ acc
      if c == '"' then some (acc.reverse, cs)
      else if c == '\\' then
        match cs with
        | [] => none
        | e :: cs =>
          if isBreak e then scanDouble? n cs 0 { first := some [] } acc
          else match simpleEscape? e, escapeDigits? e with
            | some x, _ => scanDouble? n cs (col + 2) {} (x :: acc)
            | none, some digits => do
              let x ← hexChar? cs digits
              scanDouble? n (cs.drop digits) (col + 2 + digits) {} (x :: acc)
            | none, none => none
      else scanDouble? n cs (col + 1) {} (c :: acc)

end PointsTo.Yaml
