import PointsTo.Yaml.Cursor

/-!
# What plain scalars stand for

A plain scalar can be a null, a truth value, a number or a text. Only the exact spellings below
count. Whole numbers may carry a sign and a base; a number that starts with a needless zero is a
text.
-/

namespace PointsTo.Yaml

/-- A null, the empty scalar aside. -/
def isNull (s : String) : Bool :=
  s == "null" || s == "Null" || s == "NULL" || s == "~"

def bool? (s : String) : Option Bool :=
  if s == "true" || s == "True" || s == "TRUE" then some true
  else if s == "false" || s == "False" || s == "FALSE" then some false
  else none

/-- The number that digits of a base spell, if there are any and nothing else. -/
def digits? (base : Nat) (cs : List Char) : Option Nat := do
  if cs.isEmpty then failure
  let ds ← cs.mapM fun c => (hexDigit? c).filter (· < base)
  return ds.foldl (fun acc d => acc * base + d) 0

def isDigit (c : Char) : Bool :=
  '0' ≤ c && c ≤ '9'

/-- Without a sign in front. -/
def unsigned (cs : List Char) : List Char :=
  match cs with
  | '-' :: rest | '+' :: rest => rest
  | _ => cs

/-- More than one digit, the first of them a zero. -/
def hasNeedlessZero (cs : List Char) : Bool :=
  match unsigned cs with
  | '0' :: rest => !rest.isEmpty && rest.all isDigit
  | _ => false

/-- A magnitude with its base in front, or in base ten. -/
def magnitude? (cs : List Char) : Option Nat :=
  match cs with
  | '0' :: 'x' :: rest => digits? 16 rest
  | '0' :: 'o' :: rest => digits? 8 rest
  | '0' :: 'b' :: rest => digits? 2 rest
  | _ => if hasNeedlessZero cs then none else digits? 10 cs

/-- A whole number that is not negative. -/
def nat? (s : String) : Option Nat :=
  match s.toList with
  | '+' :: rest => magnitude? rest
  | cs => magnitude? cs

/-- A whole number below zero, or zero with a minus, as its magnitude. -/
def negative? (s : String) : Option Nat :=
  match s.toList with
  | '-' :: rest => magnitude? rest
  | _ => none

/-- A natural number below `bound`. -/
def natBelow? (bound : Nat) (s : String) : Option Nat :=
  (nat? s).filter (· < bound)

/-! ## Fractions -/

/-- Digits with a point and an exponent, of which not all need be there: the digits without the
point, and the power of ten they are to be multiplied by. -/
def decimal? (cs : List Char) : Option (Nat × Int) := do
  let whole := cs.takeWhile isDigit
  let rest := cs.dropWhile isDigit
  let (fraction, rest) := match rest with
    | '.' :: r => (r.takeWhile isDigit, r.dropWhile isDigit)
    | r => ([], r)
  let digits ← digits? 10 (whole ++ fraction)
  let exponent : Int ← match rest with
    | [] => some 0
    | e :: r =>
      if e == 'e' || e == 'E' then
        match r with
        | '-' :: ds => (digits? 10 ds).map fun n => -(n : Int)
        | '+' :: ds => (digits? 10 ds).map Int.ofNat
        | ds => (digits? 10 ds).map Int.ofNat
      else none
  return (digits, exponent - fraction.length)

/-- The largest double-precision number and half a step more: what is below rounds to a finite
number. -/
def overflow : Nat := (1 <<< 1024) - (1 <<< 970)

/-- Whether `digits * 10 ^ exponent` is within the range of double precision. -/
def isFinite (digits : Nat) (exponent : Int) : Bool :=
  if digits == 0 then true
  else
    let width : Int := (Nat.toDigits 10 digits).length
    if width + exponent > 400 then false
    else match exponent with
      | .ofNat e => digits * Nat.pow 10 e < overflow
      | .negSucc e => width + exponent < 0 || digits < overflow * Nat.pow 10 (e + 1)

/-- Whether the scalar is a number with a fraction or an exponent, or one of the spelt-out ones. -/
def isFloat (s : String) : Bool :=
  let cs := s.toList
  let positive := match cs with
    | '+' :: rest => if rest.head?.any fun c => c == '+' || c == '-' then none else some rest
    | cs => some cs
  match positive with
  | none => false
  | some cs' =>
    let word := String.ofList cs'
    [".inf", ".Inf", ".INF"].contains word || ["-.inf", "-.Inf", "-.INF"].contains s ||
      [".nan", ".NaN", ".NAN"].contains s ||
      (!hasNeedlessZero cs && (decimal? (unsigned cs')).any fun (d, e) => isFinite d e)

/-- Whether the scalar is a whole number of at most 128 bits. -/
def isInteger (s : String) : Bool :=
  (natBelow? (1 <<< 128) s).isSome || (negative? s).any (· ≤ 1 <<< 127)

/-- Whether a text would be read back as something else if it were written plain. -/
def readsAsOther (s : String) : Bool :=
  s.isEmpty || isNull s || (bool? s).isSome || isInteger s || isFloat s || hasNeedlessZero s.toList

end PointsTo.Yaml
