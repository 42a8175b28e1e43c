import PointsTo.Yaml.Cursor

/-!
# YAML tags

A tag says what kind of thing a node is. It is written in full between angles, or as a handle and a
suffix; directives say what handles stand for. Octets can be written in hexadecimal after a percent
sign, so a tag is a list of octets; those after a zero do not count.
-/

namespace PointsTo.Yaml

/-- A tag as it stands for itself, without a handle. -/
structure Tag where
  octets : List UInt8
deriving DecidableEq

namespace Tag

def octetsOf (s : String) : List UInt8 :=
  s.toUTF8.toList

/-- The tag of what is nothing. -/
def null : Tag :=
  ⟨octetsOf "tag:yaml.org,2002:null"⟩

/-- The tag of truth values. -/
def bool : Tag :=
  ⟨octetsOf "tag:yaml.org,2002:bool"⟩

/-- The tag of whole numbers. -/
def int : Tag :=
  ⟨octetsOf "tag:yaml.org,2002:int"⟩

/-- The name in a tag of the writer's own, which starts with an exclamation mark. -/
def localName? (t : Tag) : Option String :=
  match t.octets with
  | [] => none
  | o :: os => if o == 0x21 then String.fromUTF8? os.toByteArray else none

/-- What handles stand for if no directive says so. -/
def standardHandles : List (String × List UInt8) :=
  [("!", octetsOf "!"), ("!!", octetsOf "tag:yaml.org,2002:")]

end Tag

/-! ## Suffixes -/

/-- The characters of suffixes that stand for themselves, between angles or not. -/
def isTagChar (angles : Bool) (c : Char) : Bool :=
  isNameChar c ||
    [';', '/', '?', ':', '@', '&', '=', '+', '$', '.', '!', '~', '*', '\'', '(', ')'].contains c ||
    (angles && [',', '[', ']'].contains c)

/-- An octet in hexadecimal. -/
def octet? : List Char → Option (UInt8 × List Char)
  | '%' :: a :: b :: cs => do
    return (UInt8.ofNat ((← hexDigit? a) * 16 + (← hexDigit? b)), cs)
  | _ => none

/-- So many octets that continue a character. -/
def furtherOctets? : Nat → List Char → Option (List UInt8 × List Char)
  | 0, cs => some ([], cs)
  | n + 1, cs => do
    let (o, cs) ← octet? cs
    if o &&& 0xC0 != 0x80 then failure
    let (os, cs) ← furtherOctets? n cs
    return (o :: os, cs)

/-- The octets of one character, of which the first tells how many follow. -/
def octets? (cs : List Char) : Option (List UInt8 × List Char) := do
  let (o, cs) ← octet? cs
  let more ←
    if o &&& 0x80 == 0 then some 0
    else if o &&& 0xE0 == 0xC0 then some 1
    else if o &&& 0xF0 == 0xE0 then some 2
    else if o &&& 0xF8 == 0xF0 then some 3
    else none
  let (os, cs) ← furtherOctets? more cs
  return (o :: os, cs)

/-- The longest suffix that a text starts with. Each step takes a character, so as many steps as
there are characters are enough. -/
def tagSuffix? (angles : Bool) : Nat → List Char → Option (List UInt8 × List Char)
  | 0, cs => some ([], cs)
  | _ + 1, [] => some ([], [])
  | n + 1, c :: cs =>
    if c == '%' then do
      let (os, cs) ← octets? (c :: cs)
      let (more, cs) ← tagSuffix? angles n cs
      return (os ++ more, cs)
    else if isTagChar angles c then do
      let (more, cs) ← tagSuffix? angles n cs
      return (UInt8.ofNat c.toNat :: more, cs)
    else some ([], c :: cs)

/-- A suffix that is not empty, up to a zero. -/
def scanSuffix? (angles : Bool) (cs : List Char) : Option (List UInt8 × List Char) := do
  let (os, rest) ← tagSuffix? angles cs.length cs
  if os.isEmpty then failure
  return (os.takeWhile (· != 0), rest)

/-! ## Handles -/

/-- A tag after its exclamation mark: its handle, which is empty for a tag in full, and suffix. -/
def scanTag? : List Char → Option (String × List UInt8 × List Char)
  | '<' :: cs => do
    match ← scanSuffix? true cs with
    | (os, '>' :: rest) => return ("", os, rest)
    | _ => failure
  | cs => do
    let name := cs.takeWhile isNameChar
    match cs.dropWhile isNameChar with
    | '!' :: rest =>
      let (os, rest) ← scanSuffix? false rest
      return ("!" ++ String.ofList name ++ "!", os, rest)
    | _ =>
      let (os, rest) ← tagSuffix? false cs.length cs
      let os := os.takeWhile (· != 0)
      return if os.isEmpty then ("", Tag.octetsOf "!", rest) else ("!", os, rest)

/-- What a directive gives a meaning to: a handle of its own or one of the two short ones. -/
def scanHandle? : List Char → Option (String × List Char)
  | '!' :: cs =>
    let name := cs.takeWhile isNameChar
    match cs.dropWhile isNameChar with
    | '!' :: rest => some ("!" ++ String.ofList name ++ "!", rest)
    | rest => if name.isEmpty then some ("!", rest) else none
  | _ => none

end PointsTo.Yaml
