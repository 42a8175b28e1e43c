import PointsTo.Yaml.Plain
import PointsTo.Yaml.Scalar

/-!
# Writing YAML

A mapping is written one entry a line, two columns deeper with every level. A text is written plain
where that reads back as the same text. Otherwise it is put between single quotes, or between double
quotes with escapes if some character cannot stand for itself, and a text of several lines becomes a
literal block.
-/

namespace PointsTo.Yaml

/-! ## What a text is made of -/

/-- The characters that stand for themselves everywhere. -/
def isPrintable (c : Char) : Bool :=
  let n := c.toNat
  n == 0x0A || (0x20 ≤ n && n ≤ 0x7E) || (0xA0 ≤ n && n ≤ 0xD7FF) ||
    (0xE000 ≤ n && n ≤ 0xFFFD && n != 0xFEFF) || 0x10000 ≤ n

/-- Breaks that matter to a writer, next-line and carriage return among them. -/
def isAnyBreak (c : Char) : Bool :=
  isBreak c || c == '\r' || c == '\u0085'

/-- Whether a text ends here or goes on with a blank or a break. -/
def endsAnyWord (cs : List Char) : Bool :=
  match cs with
  | [] => true
  | c :: _ => isBlank c || isAnyBreak c

/-- Whether a plain text that starts so would be taken for something else. -/
def startsIndicator (cs : List Char) : Bool :=
  cs.take 3 == ['-', '-', '-'] || cs.take 3 == ['.', '.', '.'] ||
    match cs with
    | [] => false
    | c :: rest =>
      isIndicator c || ((c == '?' || c == ':' || c == '-') && endsAnyWord rest)

/-- Whether a colon or a comment mark further on would end a plain text. `blank` tells whether the
character before was a blank. -/
def innerIndicator : Bool → List Char → Bool
  | _, [] => false
  | blank, c :: cs =>
    (c == ':' && endsAnyWord cs) || (c == '#' && blank) ||
      innerIndicator (isBlank c || isAnyBreak c) cs

/-- Whether two neighbouring characters satisfy a relation. -/
def hasNeighbours (r : Char → Char → Bool) : List Char → Bool
  | a :: b :: cs => r a b || hasNeighbours r (b :: cs)
  | _ => false

/-- Whether a character has to be escaped, or a blank stands before a break. -/
def needsEscape (cs : List Char) : Bool :=
  !cs.all isPrintable || hasNeighbours (fun a b => a == ' ' && isAnyBreak b) cs

/-- Whether a blank or a break is the first or the last character. -/
def hasLooseEnd (cs : List Char) : Bool :=
  let loose (c : Char) : Bool := c == ' ' || isAnyBreak c
  cs.head?.any loose || cs.getLast?.any loose

def plainAllowed (cs : List Char) : Bool :=
  !startsIndicator cs && !innerIndicator false (cs.drop 1) && !needsEscape cs && !hasLooseEnd cs &&
    !cs.any isAnyBreak

def singleAllowed (cs : List Char) : Bool :=
  !needsEscape cs && !hasNeighbours (fun a b => isAnyBreak a && b == ' ') cs

def literalAllowed (cs : List Char) : Bool :=
  !needsEscape cs && cs.getLast? != some ' '

/-! ## The four forms -/

inductive Form where
  | plain
  | single
  | double
  | literal
deriving DecidableEq

/-- The form that a text is written in. -/
def form (s : String) : Form :=
  let cs := s.toList
  if cs.contains '\n' then
    if literalAllowed cs then .literal else .double
  else if !readsAsOther s && plainAllowed cs then .plain
  else if singleAllowed cs then .single
  else .double

/-- That many spaces. -/
def spaces (n : Nat) : List Char :=
  List.replicate n ' '

/-- Quotes are doubled, and a line after a break is indented. -/
def singleBody (indent : Nat) : Bool → List Char → List Char
  | broke, [] => if broke then spaces indent else []
  | broke, c :: cs =>
    if isAnyBreak c then c :: singleBody indent true cs
    else (if broke then spaces indent else []) ++
      (if c == '\'' then ['\'', '\''] else [c]) ++ singleBody indent false cs

/-- The digits of a code point in base sixteen, in capitals and filled up with zeros. -/
def paddedHex (width n : Nat) : List Char :=
  let digits := (Nat.toDigits 16 n).map Char.toUpper
  List.replicate (width - digits.length) '0' ++ digits

/-- What a character is written as between double quotes. -/
def doubleChar (c : Char) : List Char :=
  if isPrintable c && !isAnyBreak c && c != '"' && c != '\\' then [c]
  else match c with
    | '\x00' => ['\\', '0']
    | '\x07' => ['\\', 'a']
    | '\x08' => ['\\', 'b']
    | '\t' => ['\\', 't']
    | '\n' => ['\\', 'n']
    | '\x0b' => ['\\', 'v']
    | '\x0c' => ['\\', 'f']
    | '\r' => ['\\', 'r']
    | '\x1b' => ['\\', 'e']
    | '"' => ['\\', '"']
    | '\\' => ['\\', '\\']
    | '\u0085' => ['\\', 'N']
    | '\u2028' => ['\\', 'L']
    | '\u2029' => ['\\', 'P']
    | c =>
      let n := c.toNat
      if n ≤ 0xFF then '\\' :: 'x' :: paddedHex 2 n
      else if n ≤ 0xFFFF then '\\' :: 'u' :: paddedHex 4 n
      else '\\' :: 'U' :: paddedHex 8 n

/-- The marks after the bar of a literal block: the indentation if the first line does not show it,
and what becomes of the breaks at the end. -/
def literalMarks (cs : List Char) : List Char :=
  let indent := if cs.head?.any fun c => c == ' ' || isAnyBreak c then ['2'] else []
  let chomp := match cs.reverse with
    | [] => ['-']
    | last :: before =>
      if !isAnyBreak last then ['-']
      else if before.isEmpty || before.head?.any isAnyBreak then ['+']
      else []
  indent ++ chomp

/-- Every line that is not empty is indented. -/
def literalBody (indent : Nat) : Bool → List Char → List Char
  | _, [] => []
  | start, c :: cs =>
    if isAnyBreak c then c :: literalBody indent true cs
    else (if start then spaces indent else []) ++ c :: literalBody indent false cs

/-- A text as the value of an entry at that depth. -/
def writeText (depth : Nat) (s : String) : String :=
  let cs := s.toList
  let indent := 2 * (depth + 1)
  String.ofList <| match form s with
    | .plain => cs
    | .single => '\'' :: singleBody indent false cs ++ ['\'']
    | .double => '"' :: cs.flatMap doubleChar ++ ['"']
    | .literal => '|' :: literalMarks cs ++ '\n' :: literalBody indent true cs

/-! ## Entries -/

/-- A line with a key and its value. A literal block that ends in a break has its line end
already. -/
def entry (depth : Nat) (key value : String) : String :=
  let line := String.ofList (spaces (2 * depth)) ++ key ++ ": " ++ value
  if line.toList.getLast?.any isAnyBreak then line else line ++ "\n"

/-- A line with a key whose value is the mapping below it. -/
def heading (depth : Nat) (key : String) : String :=
  String.ofList (spaces (2 * depth)) ++ key ++ ":\n"

end PointsTo.Yaml
