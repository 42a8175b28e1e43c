import PointsTo.Text.Quoted

/-!
# Documents

What the library hands to other tools is a document: numbers, texts and truth values in lists and
records. The written form puts every item on a line of its own, two spaces deeper than what it is
part of.
-/

namespace PointsTo

inductive Doc where
  | null
  | bool (b : Bool)
  | num (n : Nat)
  | text (s : String)
  | list (items : List Doc)
  | record (fields : List (String × Doc))

/-- What can be handed out as a document. -/
class ToDoc (α : Type) where
  doc : α → Doc

export ToDoc (doc)

instance : ToDoc Doc := ⟨id⟩

instance : ToDoc Bool := ⟨.bool⟩

instance : ToDoc Nat := ⟨.num⟩

instance : ToDoc String := ⟨.text⟩

/-- Something missing is null. -/
instance {α : Type} [ToDoc α] : ToDoc (Option α) :=
  ⟨fun x => (x.map doc).getD .null⟩

instance {α : Type} [ToDoc α] : ToDoc (List α) :=
  ⟨fun xs => .list (xs.map doc)⟩

/-- What can be part of a tuple: a pair counts as its parts. -/
class ToRow (α : Type) where
  row : α → List Doc

instance (priority := low) {α : Type} [ToDoc α] : ToRow α :=
  ⟨fun x => [doc x]⟩

instance {α β : Type} [ToDoc α] [ToRow β] : ToRow (α × β) :=
  ⟨fun x => doc x.1 :: ToRow.row x.2⟩

/-- A tuple is the list of its parts. -/
instance {α β : Type} [ToDoc α] [ToRow β] : ToDoc (α × β) :=
  ⟨fun x => .list (ToRow.row x)⟩

namespace Doc

/-- The fields that hold something: no empty list and no empty record. -/
def nonEmpty (fields : List (String × Doc)) : List (String × Doc) :=
  fields.filter fun f =>
    match f.2 with
    | .list [] | .record [] => false
    | _ => true

/-! ## The written form -/

/-- Four digits in base sixteen. -/
def hex4 (n : Nat) : String :=
  let digits := Text.hex n
  "".pushn '0' (4 - digits.length) ++ digits

/-- A character between the quotes of a text. Only quotes, backslashes and controls are escaped. -/
def writeChar (c : Char) : String :=
  match c with
  | '"' => "\\\""
  | '\\' => "\\\\"
  | '\x08' => "\\b"
  | '\x09' => "\\t"
  | '\x0a' => "\\n"
  | '\x0c' => "\\f"
  | '\x0d' => "\\r"
  | c => if c.toNat < 0x20 then "\\u" ++ hex4 c.toNat else c.toString

def writeText (s : String) : String :=
  "\"" ++ String.join (s.toList.map writeChar) ++ "\""

/-- Items between brackets, one a line. -/
def block (indent left right : String) (items : List String) : String :=
  if items.isEmpty then left ++ right
  else
    let lines := items.map fun item => indent ++ "  " ++ item
    left ++ "\n" ++ ",\n".intercalate lines ++ "\n" ++ indent ++ right

mutual

/-- The written form at some depth. -/
def writeAt (indent : String) : Doc → String
  | null => "null"
  | bool b => toString b
  | num n => toString n
  | text s => writeText s
  | list items => block indent "[" "]" (writeItems (indent ++ "  ") items)
  | record fields => block indent "\x7b" "\x7d" (writeFields (indent ++ "  ") fields)

def writeItems (indent : String) : List Doc → List String
  | [] => []
  | d :: ds => writeAt indent d :: writeItems indent ds

def writeFields (indent : String) : List (String × Doc) → List String
  | [] => []
  | (key, d) :: fields => (writeText key ++ ": " ++ writeAt indent d) :: writeFields indent fields

end

def write (d : Doc) : String :=
  writeAt "" d

end Doc

end PointsTo
