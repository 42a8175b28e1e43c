/-!
# Places in a YAML text

Characters, and cursors: the rest of a text together with the place it starts at. Carriage returns
and next-line characters are turned into plain breaks before anything is read (`breaks`), so a break
is one character.
-/

namespace PointsTo.Yaml

/-! ## Characters -/

/-- The line break characters. -/
def isBreak (c : Char) : Bool :=
  c == '\n' || c == '\u2028' || c == '\u2029'

def isBlank (c : Char) : Bool :=
  c == ' ' || c == '\t'

/-- Whether the text ends here or goes on with a blank or a break. -/
def endsWord : List Char → Bool
  | [] => true
  | c :: _ => isBlank c || isBreak c

/-- The characters of names. -/
def isNameChar (c : Char) : Bool :=
  c.isAlphanum || c == '_' || c == '-'

/-- The characters that a text may hold. -/
def isAllowed (c : Char) : Bool :=
  let n := c.toNat
  n == 0x09 || n == 0x0A || n == 0x0D || (0x20 ≤ n && n ≤ 0x7E) || n == 0x85 ||
    (0xA0 ≤ n && n ≤ 0xFFFD) || 0x10000 ≤ n

/-- The text with every kind of break as one character. -/
def breaks : List Char → List Char
  | '\r' :: '\n' :: cs => '\n' :: breaks cs
  | c :: cs => (if c == '\r' || c == '\u0085' then '\n' else c) :: breaks cs
  | [] => []

/-- The value of a hexadecimal digit. -/
def hexDigit? (c : Char) : Option Nat :=
  if '0' ≤ c && c ≤ '9' then some (c.toNat - '0'.toNat)
  else if 'a' ≤ c && c ≤ 'f' then some (c.toNat - 'a'.toNat + 10)
  else if 'A' ≤ c && c ≤ 'F' then some (c.toNat - 'A'.toNat + 10)
  else none

/-- A document marker: three dashes or dots at the start of a line. -/
def atMarker (mark : Char) (col : Nat) (cs : List Char) : Bool :=
  col == 0 && cs.take 3 == [mark, mark, mark] && endsWord (cs.drop 3)

/-- Where a document starts or ends. -/
def atDocumentEdge (col : Nat) (cs : List Char) : Bool :=
  atMarker '-' col cs || atMarker '.' col cs

/-! ## Cursors -/

/-- The rest of a text and where it starts: the line, the column, and how many bytes of the line
come before it. -/
structure Cursor where
  rest : List Char
  line : Nat := 0
  col : Nat := 0
  width : Nat := 0

namespace Cursor

/-- Past the first character. -/
def next (cur : Cursor) : Cursor :=
  match cur.rest with
  | [] => cur
  | c :: cs =>
    if isBreak c then { rest := cs, line := cur.line + 1 }
    else { rest := cs, line := cur.line, col := cur.col + 1, width := cur.width + c.utf8Size }

/-- Past that many characters. -/
def skip : Nat → Cursor → Cursor
  | 0, cur => cur
  | n + 1, cur => skip n cur.next

/-- To the start of `rest`, with which the text ends. -/
def moveTo (rest : List Char) (cur : Cursor) : Cursor :=
  cur.skip (cur.rest.length - rest.length)

end Cursor

end PointsTo.Yaml
