import Std.Data.TreeMap
import PointsTo.Sets.ObjSet

/-!
# Incremental points-to facts

Each key owns two sets: what has been *propagated* along the key's outgoing edges, and the *fresh*
facts found since the last flush. Propagated facts are never taken back; only fresh ones may be
dropped. A fact that is already propagated is not fresh again, unless the key is *reseeded*, which
offers everything propagated so far once more.

An operation that can add facts answers whether it did, since that is what puts a key back on a
worklist.
-/

namespace PointsTo

/-- Propagated and fresh facts by key. An absent entry counts as an empty set. -/
structure DiffStore where
  backing : Backing
  fresh : Std.TreeMap Nat ObjSet := ∅
  propagated : Std.TreeMap Nat ObjSet := ∅

namespace DiffStore

/-- A store without facts, whose sets are stored as the prototype is. What the prototype holds does
not count. -/
def ofPrototype (prototype : ObjSet) : DiffStore :=
  { backing := prototype.clear.backing }

/-- The fresh facts of `key`, if an entry for them was ever made. -/
def fresh? (s : DiffStore) (key : Nat) : Option ObjSet :=
  s.fresh[key]?

/-- The propagated facts of `key`, if an entry for them was ever made. -/
def propagated? (s : DiffStore) (key : Nat) : Option ObjSet :=
  s.propagated[key]?

/-- The empty set that new entries start from. -/
def emptySet (s : DiffStore) : ObjSet :=
  .empty s.backing

/-- The fresh facts of `key`, empty when there is no entry. -/
def freshOf (s : DiffStore) (key : Nat) : ObjSet :=
  (s.fresh? key).getD s.emptySet

/-- The propagated facts of `key`, empty when there is no entry. -/
def propagatedOf (s : DiffStore) (key : Nat) : ObjSet :=
  (s.propagated? key).getD s.emptySet

/-- Everything known about `key`. -/
def all (s : DiffStore) (key : Nat) : ObjSet :=
  ((s.emptySet.union (s.propagatedOf key)).2.union (s.freshOf key)).2

/-- Whether `key` has facts still to be propagated. -/
def hasFresh (s : DiffStore) (key : Nat) : Bool :=
  !(s.freshOf key).isEmpty

/-- The keys with propagated facts, ascending. -/
def keys (s : DiffStore) : List Nat :=
  (s.propagated.toList.filter fun p => !p.2.isEmpty).map (·.1)

/-- Replaces the fresh facts of `key`. -/
def setFresh (s : DiffStore) (key : Nat) (facts : ObjSet) : DiffStore :=
  { s with fresh := s.fresh.insert key facts }

/-- Replaces the propagated facts of `key`. -/
def setPropagated (s : DiffStore) (key : Nat) (facts : ObjSet) : DiffStore :=
  { s with propagated := s.propagated.insert key facts }

/-- Makes sure that `key` has an entry for fresh facts. -/
def touch (s : DiffStore) (key : Nat) : DiffStore :=
  s.setFresh key (s.freshOf key)

/-- Replaces the fresh facts of `key` by what an operation on them leaves, and hands on its
answer. -/
def replaceFresh (s : DiffStore) (key : Nat) (r : Bool × ObjSet) : Bool × DiffStore :=
  r.map id (s.setFresh key)

/-- Records one fact as fresh, unless it is propagated already. -/
def add (s : DiffStore) (key elem : Nat) : Bool × DiffStore :=
  if (s.propagatedOf key).contains elem then (false, s)
  else s.replaceFresh key ((s.freshOf key).insert elem)

/-- Offers everything propagated so far once more. -/
def reseed (s : DiffStore) (key : Nat) : Bool × DiffStore :=
  if (s.propagatedOf key).isEmpty then (false, s)
  else (true, s.setFresh key ((s.freshOf key).union (s.propagatedOf key)).2)

/-- What of `facts` is not propagated to `key`. -/
def unpropagated (s : DiffStore) (key : Nat) (facts : ObjSet) : ObjSet :=
  match s.propagated? key with
  | some known => facts.subtract known
  | none => facts

/-- Records `facts` as fresh for `dst`, those aside that are propagated already. -/
def addAll (s : DiffStore) (dst : Nat) (facts : ObjSet) : Bool × DiffStore :=
  let incoming := s.unpropagated dst facts
  if incoming.isEmpty then (false, s)
  else s.replaceFresh dst ((s.freshOf dst).union incoming)

/-- Passes the fresh facts of `src` on to `dst`. -/
def addFresh (s : DiffStore) (dst src : Nat) : Bool × DiffStore :=
  if dst = src then (false, s)
  else match s.fresh? src with
    | none => (false, s)
    | some facts => s.addAll dst facts

/-- Passes everything known about `src` on to `dst`. -/
def addKnown (s : DiffStore) (dst src : Nat) : Bool × DiffStore :=
  if dst = src then (false, s)
  else s.addAll dst ((s.emptySet.union (s.freshOf src)).2.union (s.propagatedOf src)).2

/-- The fresh facts of `src` that are not propagated to `dst`. -/
def pendingFor (s : DiffStore) (src dst : Nat) : ObjSet :=
  match s.fresh? src with
  | none => s.emptySet
  | some facts => s.unpropagated dst facts

/-- Counts the fresh facts of `key` as propagated. -/
def flush (s : DiffStore) (key : Nat) : DiffStore :=
  if (s.freshOf key).isEmpty then s
  else (s.setPropagated key ((s.propagatedOf key).union (s.freshOf key)).2).setFresh key s.emptySet

/-- Drops one fresh fact. -/
def dropFresh (s : DiffStore) (key elem : Nat) : Bool × DiffStore :=
  match s.fresh? key with
  | none => (false, s)
  | some facts => s.replaceFresh key (facts.erase elem)

/-- Drops all fresh facts of `key`. -/
def clearFresh (s : DiffStore) (key : Nat) : DiffStore :=
  match s.fresh? key with
  | none => s
  | some facts => s.setFresh key facts.clear

/-- Puts a fact among the fresh ones, propagated or not. -/
def forceFresh (s : DiffStore) (key elem : Nat) : Bool × DiffStore :=
  s.replaceFresh key ((s.freshOf key).insert elem)

/-! ## What an update reads back as -/

@[simp] theorem fresh?_setFresh (s : DiffStore) (key other : Nat) (facts : ObjSet) :
    (s.setFresh key facts).fresh? other = if key = other then some facts else s.fresh? other := by
  simp [setFresh, fresh?, Std.TreeMap.getElem?_insert]

@[simp] theorem replaceFresh_snd (s : DiffStore) (key : Nat) (r : Bool × ObjSet) :
    (s.replaceFresh key r).2 = s.setFresh key r.2 := rfl

@[simp] theorem propagated?_setFresh (s : DiffStore) (key other : Nat) (facts : ObjSet) :
    (s.setFresh key facts).propagated? other = s.propagated? other := rfl

@[simp] theorem propagated?_setPropagated (s : DiffStore) (key other : Nat) (facts : ObjSet) :
    (s.setPropagated key facts).propagated? other =
      if key = other then some facts else s.propagated? other := by
  simp [setPropagated, propagated?, Std.TreeMap.getElem?_insert]

@[simp] theorem fresh?_setPropagated (s : DiffStore) (key other : Nat) (facts : ObjSet) :
    (s.setPropagated key facts).fresh? other = s.fresh? other := rfl

end DiffStore

end PointsTo
