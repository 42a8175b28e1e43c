import PointsTo.Yaml.Cursor

/-!
# YAML block scalars

Scalars that take lines of their own, after a bar (every break is kept) or an angle (breaks between
lines that do not start with a blank are folded). The lines are indented alike: by as much as the
header says, or by as much as the first line that is not empty.
-/

namespace PointsTo.Yaml

/-! ## Header -/

/-- How the breaks at the end of a block scalar are kept: none, one or all. -/
inductive Chomp where
  | strip
  | clip
  | keep

/-- The mark for the breaks at the end. -/
def chompMark? : List Char → Option (Chomp × List Char)
  | '-' :: cs => some (.strip, cs)
  | '+' :: cs => some (.keep, cs)
  | _ => none

/-- The digit for the indentation, if there is one. It must not be zero. -/
def indentMark? : List Char → Option (Option Nat × List Char)
  | [] => some (none, [])
  | c :: cs =>
    if c == '0' then none
    else if c.isDigit then some (some (c.toNat - '0'.toNat), cs)
    else some (none, c :: cs)

/-- Both marks, in either order. -/
def blockMarks? (cs : List Char) : Option (Chomp × Option Nat × List Char) :=
  match chompMark? cs with
  | some (chomp, cs) => (indentMark? cs).map fun (indent, cs) => (chomp, indent, cs)
  | none => (indentMark? cs).map fun (indent, cs) =>
    match chompMark? cs with
    | some (chomp, cs) => (chomp, indent, cs)
    | none => (.clip, indent, cs)

/-- Past the blanks and the comment that may end a line, and past its break. -/
def endLine? (cs : List Char) : Option (List Char) :=
  let rest := match cs.dropWhile isBlank with
    | '#' :: cs => cs.dropWhile fun c => !isBreak c
    | cs => cs
  match rest with
  | [] => some []
  | c :: cs => if isBreak c then some cs else none

/-! ## Lines -/

/-- Empty lines and the indentation after them: the breaks, the widest indentation met, the column
that was reached and what follows there. -/
structure Margin where
  breaks : List Char
  widest : Nat
  col : Nat
  rest : List Char

/-- Past empty lines and the indentation after them, which is `indent` deep at most. A tab within
the indentation is refused. -/
def skipMargin? (indent : Option Nat) : List Char → Nat → Nat → List Char → Option Margin
  | [], col, widest, acc => some ⟨acc.reverse, max widest col, col, []⟩
  | c :: cs, col, widest, acc =>
    let inside := indent.all fun n => decide (col < n)
    if c == ' ' && inside then skipMargin? indent cs (col + 1) widest acc
    else if c == '\t' && inside then none
    else if isBreak c then skipMargin? indent cs 0 (max widest col) (c :: acc)
    else some ⟨acc.reverse, max widest col, col, c :: cs⟩

/-- The lines of a block scalar. `lead` is the break that ended the line before, and `wasBlank`
tells whether that line started with a blank. Answers the text, the break that ended its last line
and the margin after that. Every line takes a character, so as many steps as there are characters
are enough. -/
def blockLines? (literal : Bool) (indent : Nat) :
    Nat → Margin → List Char → Bool → List Char → Option (List Char × List Char × Margin)
  | 0, margin, lead, _, acc => some (acc, lead, margin)
  | n + 1, margin, lead, wasBlank, acc =>
    if margin.col != indent || margin.rest.isEmpty then some (acc, lead, margin)
    else do
      let blank := margin.rest.head?.any isBlank
      let glue :=
        if !literal && lead == ['\n'] && !wasBlank && !blank then
          if margin.breaks.isEmpty then [' '] else []
        else lead
      let line := margin.rest.takeWhile fun c => !isBreak c
      let (br, rest) := match margin.rest.dropWhile fun c => !isBreak c with
        | [] => ([], [])
        | b :: rest => ([b], rest)
      let margin' ← skipMargin? (some indent) rest 0 0 []
      blockLines? literal indent n margin' br blank (acc ++ glue ++ margin.breaks ++ line)

/-- What follows the bar or the angle of a block scalar, where a line of the enclosing block is
indented by less than `floor`. -/
def scanBlock? (literal : Bool) (floor : Nat) (cs : List Char) :
    Option (List Char × List Char) := do
  let (chomp, explicit, rest) ← blockMarks? cs
  let rest ← endLine? rest
  let explicit := explicit.map (floor - 1 + ·)
  let margin ← skipMargin? explicit rest 0 0 []
  let indent := explicit.getD (max (max margin.widest floor) 1)
  let (text, lead, margin) ← blockLines? literal indent rest.length margin [] false []
  let ending := match chomp with
    | .strip => []
    | .clip => lead
    | .keep => lead ++ margin.breaks
  return (text ++ ending, margin.rest)

end PointsTo.Yaml
