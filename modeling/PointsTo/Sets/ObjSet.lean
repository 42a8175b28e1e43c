import PointsTo.Sets.Ascending
import PointsTo.Sets.BitWords

/-!
# Points-to sets

A finite set of object ids with one of two backings: an ascending list, or a sparse bit vector.
Operands of one backing use that backing's own operation; operands of different backings meet
element by element. The result always keeps the backing of the left operand, and what a set
answers depends on its elements alone. An operation that may change membership and has an answer
gives it together with the set.
-/

namespace PointsTo

/-- How a points-to set is stored. -/
inductive Backing where
  | hash
  | bits
deriving DecidableEq, Repr

/-- A points-to set. -/
inductive ObjSet where
  | hash (elems : List Nat)
  | bits (words : BitWords)
deriving DecidableEq

namespace ObjSet

/-- The empty set of a backing. -/
def empty : Backing → ObjSet
  | .hash => hash []
  | .bits => bits []

/-- The backing a set was made with. -/
def backing : ObjSet → Backing
  | hash _ => .hash
  | bits _ => .bits

/-- The set of the members of `xs`. -/
def ofList : Backing → List Nat → ObjSet
  | .hash, xs => hash (Ascending.ofList xs)
  | .bits, xs => bits (BitWords.ofList xs)

/-- The members, ascending. -/
def toList : ObjSet → List Nat
  | hash xs => xs
  | bits ws => ws.toList

def contains : ObjSet → Nat → Bool
  | hash xs, e => xs.contains e
  | bits ws, e => ws.contains e

/-- Adds `e`. The answer is whether it was missing. -/
def insert : ObjSet → Nat → Bool × ObjSet
  | hash xs, e => (!xs.contains e, hash (Ascending.insert e xs))
  | bits ws, e => (ws.insert e).map id bits

/-- Takes `e` out. The answer is whether it was there. -/
def erase : ObjSet → Nat → Bool × ObjSet
  | hash xs, e => (xs.contains e, hash (Ascending.subtract xs [e]))
  | bits ws, e => (ws.erase e).map id bits

/-- Adds `e` to the set of a pair, and notes in the answer when it was missing. -/
def insertNoting (r : Bool × ObjSet) (e : Nat) : Bool × ObjSet :=
  (r.2.insert e).map (r.1 || ·) id

/-- Adds the members of `xs` one by one. The answer is whether one of them was missing. -/
def insertAll (s : ObjSet) (xs : List Nat) : Bool × ObjSet :=
  xs.foldl insertNoting (false, s)

/-- Takes out the members of `xs` one by one. -/
def eraseAll (s : ObjSet) (xs : List Nat) : ObjSet :=
  xs.foldl (fun s e => (s.erase e).2) s

/-- Adds the members of the second set. The answer is whether the first one grew. -/
def union : ObjSet → ObjSet → Bool × ObjSet
  | hash xs, hash ys =>
    let zs := Ascending.union xs ys
    (zs.length != xs.length, hash zs)
  | bits xs, bits ys => (xs.union ys).map id bits
  | a, b => a.insertAll b.toList

/-- The members of the first set that are not in the second. -/
def subtract : ObjSet → ObjSet → ObjSet
  | hash xs, hash ys => hash (if ys.isEmpty then xs else Ascending.subtract xs ys)
  | bits xs, bits ys => bits (xs.subtract ys)
  | a, b => a.eraseAll b.toList

/-- The members of both sets. -/
def intersect : ObjSet → ObjSet → ObjSet
  | hash xs, hash ys => hash (Ascending.intersect xs ys)
  | bits xs, bits ys => bits (xs.intersect ys)
  | a, b => a.eraseAll (a.toList.filter fun e => !b.contains e)

/-- Whether every member of the second set is in the first. -/
def isSuperset : ObjSet → ObjSet → Bool
  | bits xs, bits ys => xs.isSuperset ys
  | a, b => b.toList.all a.contains

/-- Whether some member is in both sets. -/
def intersects : ObjSet → ObjSet → Bool
  | hash xs, hash ys => Ascending.intersects xs ys
  | bits xs, bits ys => xs.intersects ys
  | a, b => b.toList.any a.contains

def size : ObjSet → Nat
  | hash xs => xs.length
  | bits ws => ws.size

def isEmpty : ObjSet → Bool
  | hash xs => xs.isEmpty
  | bits ws => ws.isEmpty

/-- Forgets the members and keeps the backing. -/
def clear (s : ObjSet) : ObjSet :=
  empty s.backing

instance : Inhabited ObjSet := ⟨empty .hash⟩

/-! ## Backing -/

@[simp] theorem backing_empty (b : Backing) : (empty b).backing = b := by
  cases b <;> rfl

@[simp] theorem backing_insert (s : ObjSet) (e : Nat) : (s.insert e).2.backing = s.backing := by
  cases s <;> rfl

@[simp] theorem backing_erase (s : ObjSet) (e : Nat) : (s.erase e).2.backing = s.backing := by
  cases s <;> rfl

theorem backing_foldl_insertNoting (xs : List Nat) (r : Bool × ObjSet) :
    (xs.foldl insertNoting r).2.backing = r.2.backing := by
  induction xs generalizing r with
  | nil => rfl
  | cons x xs ih => simp [ih, insertNoting]

@[simp] theorem backing_insertAll (s : ObjSet) (xs : List Nat) :
    (s.insertAll xs).2.backing = s.backing :=
  backing_foldl_insertNoting xs (false, s)

@[simp] theorem backing_eraseAll (s : ObjSet) (xs : List Nat) :
    (s.eraseAll xs).backing = s.backing := by
  unfold eraseAll
  induction xs generalizing s with
  | nil => rfl
  | cons x xs ih => simp [ih]

@[simp] theorem backing_union (a b : ObjSet) : (a.union b).2.backing = a.backing := by
  cases a <;> cases b <;> first | rfl | exact backing_insertAll _ _

@[simp] theorem backing_subtract (a b : ObjSet) : (a.subtract b).backing = a.backing := by
  cases a <;> cases b <;> first | rfl | exact backing_eraseAll _ _

@[simp] theorem backing_intersect (a b : ObjSet) : (a.intersect b).backing = a.backing := by
  cases a <;> cases b <;> first | rfl | exact backing_eraseAll _ _

@[simp] theorem toList_empty (b : Backing) : (empty b).toList = [] := by
  cases b <;> rfl

@[simp] theorem isEmpty_empty (b : Backing) : (empty b).isEmpty = true := by
  cases b <;> rfl

end ObjSet

end PointsTo
