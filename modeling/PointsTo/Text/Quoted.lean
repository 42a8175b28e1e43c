import PointsTo.Text.Shapeless

/-!
# Quoted text

Text between double quotes, in which a quote and a backslash are escaped by a backslash, the usual
controls have letters, and characters without a shape of their own are written by code point.
Records, tuples and lists of such texts are written the way a reader of the data would expect.
-/

namespace PointsTo.Text

/-- The digits of a number in base sixteen. -/
def hex (n : Nat) : String :=
  String.ofList (Nat.toDigits 16 n)

/-- What a character is written as between quotes. -/
def quoteChar (c : Char) : String :=
  match c with
  | '"' => "\\\""
  | '\\' => "\\\\"
  | '\n' => "\\n"
  | '\t' => "\\t"
  | '\r' => "\\r"
  | '\x00' => "\\0"
  | c => if isShapeless c then "\\u\x7b" ++ hex c.toNat ++ "\x7d" else c.toString

/-- A text between quotes. -/
def quoted (s : String) : String :=
  "\"" ++ String.join (s.toList.map quoteChar) ++ "\""

/-- `[a, b]` -/
def list (items : List String) : String :=
  "[" ++ ", ".intercalate items ++ "]"

/-- `Name(a, b)` -/
def tuple (name : String) (args : List String) : String :=
  name ++ "(" ++ ", ".intercalate args ++ ")"

/-- `Name { key: a, key: b }` -/
def record (name : String) (fields : List (String × String)) : String :=
  name ++ " \x7b " ++ ", ".intercalate (fields.map fun f => f.1 ++ ": " ++ f.2) ++ " \x7d"

/-- `Some(a)` or `None` -/
def optional : Option String → String
  | some s => tuple "Some" [s]
  | none => "None"

end PointsTo.Text
