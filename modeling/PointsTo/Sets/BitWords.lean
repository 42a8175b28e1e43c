/-!
# Sparse bit vectors

A set of numbers as a list of `(block, word)` pairs: bit `i` of the word of block `b` says whether
`64 * b + i` is in the set. Blocks ascend and no word is zero, so a set has one representation.

A member is looked up by its block and tested by its mask. What adds or takes out a member answers
from the same word whether that changes the set.

Two vectors meet in a merge: one pass over both, which compares the blocks at their heads, or skips
to a block, and ends as early as it can.
-/

namespace PointsTo

/-- Sixty-four members, one a bit. -/
abbrev Word := BitVec 64

/-- Words by ascending block. -/
abbrev BitWords := List (Nat × Word)

namespace BitWords

/-- The word of block `b`, zero when the block is absent. -/
def wordAt (ws : BitWords) (b : Nat) : Word :=
  (ws.lookup b).getD 0

/-- The word with the bit of `e` alone. -/
def mask (e : Nat) : Word :=
  BitVec.twoPow 64 (e % 64)

/-- Whether the bit of `e` is set in the word of its block. -/
def contains (ws : BitWords) (e : Nat) : Bool :=
  match ws.lookup (e / 64) with
  | some w => w &&& mask e != 0
  | none => false

/-! ## Single members -/

/-- The words from block `b` on. -/
def skipTo (b : Nat) (ws : BitWords) : BitWords :=
  ws.dropWhile fun p => p.1 < b

/-- Puts a word at the place of its block, which is absent. -/
def place (b : Nat) (w : Word) (ws : BitWords) : BitWords :=
  (ws.takeWhile fun p => p.1 < b) ++ (b, w) :: ws.skipTo b

/-- Applies `f` to every block and word and drops the words that become zero. -/
def mapWords (f : Nat → Word → Word) (ws : BitWords) : BitWords :=
  ws.filterMap fun p => if f p.1 p.2 = 0 then none else some (p.1, f p.1 p.2)

/-- Changes the word of block `b`, and drops it if it becomes zero. -/
def modifyWord (b : Nat) (f : Word → Word) (ws : BitWords) : BitWords :=
  ws.mapWords fun c w => if c = b then f w else w

/-- Adds `e`. The answer is whether it was missing. -/
def insert (ws : BitWords) (e : Nat) : Bool × BitWords :=
  match ws.lookup (e / 64) with
  | some w => (w &&& mask e == 0, ws.modifyWord (e / 64) (· ||| mask e))
  | none => (true, ws.place (e / 64) (mask e))

/-- Takes `e` out. The answer is whether it was there. -/
def erase (ws : BitWords) (e : Nat) : Bool × BitWords :=
  match ws.lookup (e / 64) with
  | some w => (w &&& mask e != 0, ws.modifyWord (e / 64) (· &&& ~~~ mask e))
  | none => (false, ws)

/-- The set of the members of `xs`. -/
def ofList (xs : List Nat) : BitWords :=
  xs.foldl (fun ws e => (ws.insert e).2) []

/-! ## Two vectors -/

/-- The words of both vectors. The answer is whether the first one gains a bit; it is `changed` if
a word merged before was news already. A block that only the second one has is always news. -/
def merge (changed : Bool) : BitWords → BitWords → Bool × BitWords
  | xs, [] => (changed, xs)
  | [], ys => (true, ys)
  | (b, v) :: xs, (c, w) :: ys =>
    if b < c then (merge changed xs ((c, w) :: ys)).map id ((b, v) :: ·)
    else if c < b then (merge true ((b, v) :: xs) ys).map id ((c, w) :: ·)
    else (merge (changed || v ||| w != v) xs ys).map id ((b, v ||| w) :: ·)
termination_by xs ys => xs.length + ys.length

/-- Adds the members of `ys`. The answer is whether one of them was missing. -/
def union : BitWords → BitWords → Bool × BitWords
  | xs, [] => (false, xs)
  | [], ys => (true, ys)
  | xs, ys => merge false xs ys

/-- The word `v` of block `b` without the bits of the first of the words, if that is of the same
block. -/
def clearBy (b : Nat) (v : Word) : BitWords → Word
  | [] => v
  | (c, w) :: _ => if c = b then v &&& ~~~ w else v

/-- Clears in every word of `xs` the bits that `ys` has there, skipping through `ys` meanwhile. -/
def clearBits : BitWords → BitWords → BitWords
  | [], _ => []
  | (b, v) :: xs, ys =>
    let left := clearBy b v (ys.skipTo b)
    if left = 0 then clearBits xs (ys.skipTo b) else (b, left) :: clearBits xs (ys.skipTo b)

/-- Takes out the members of `ys`. -/
def subtract (xs ys : BitWords) : BitWords :=
  if xs.isEmpty || ys.isEmpty then xs else clearBits xs ys

/-- The members of both sets. -/
def intersect : BitWords → BitWords → BitWords
  | [], _ => []
  | _, [] => []
  | (b, v) :: xs, (c, w) :: ys =>
    if b < c then intersect xs ((c, w) :: ys)
    else if c < b then intersect ((b, v) :: xs) ys
    else if v &&& w = 0 then intersect xs ys
    else (b, v &&& w) :: intersect xs ys
termination_by xs ys => xs.length + ys.length

/-- Whether every member of `ys` is in `xs`. -/
def isSuperset : BitWords → BitWords → Bool
  | _, [] => true
  | xs, (c, w) :: ys =>
    match xs.skipTo c with
    | [] => false
    | (b, v) :: rest =>
      if b ≠ c then false
      else if v &&& w ≠ w then false
      else isSuperset ((b, v) :: rest) ys

/-- Whether some member is in both sets. -/
def intersects : BitWords → BitWords → Bool
  | [], _ => false
  | _, [] => false
  | (b, v) :: xs, (c, w) :: ys =>
    if b < c then intersects xs ((c, w) :: ys)
    else if c < b then intersects ((b, v) :: xs) ys
    else if v &&& w ≠ 0 then true
    else intersects xs ys
termination_by xs ys => xs.length + ys.length

/-! ## Listing -/

/-- The positions of the bits set in a word, ascending. -/
def positions (w : Word) : List Nat :=
  (List.range 64).filter fun i => w.getLsbD i

/-- The members, ascending. -/
def toList (ws : BitWords) : List Nat :=
  ws.flatMap fun p => (positions p.2).map (64 * p.1 + ·)

/-- How many members there are: the bits set, summed over the words. -/
def size (ws : BitWords) : Nat :=
  ws.foldl (fun n p => n + (positions p.2).length) 0

end BitWords

end PointsTo
