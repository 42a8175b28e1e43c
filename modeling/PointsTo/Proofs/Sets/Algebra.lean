import Mathlib.Data.Finset.Sort
import PointsTo.Proofs.Sets.Canonical

/-!
# Points-to sets as finite sets

A points-to set is made by operations from empty sets. An expression (`SetExpr`) writes such a
making down; it can be run on points-to sets, each operand with a backing of its own, and it can
be read as an expression over finite sets of numbers. The two agree: what a run leaves represents
the finite set, and what the operations answer is what holds of the finite sets.

`Represents` is the invariant that carries this. Every operation takes sets that represent finite
sets to a set that represents the result of the finite-set operation; everything else is read off.
-/

namespace PointsTo

namespace BitWords

/-! ## Bit vectors -/

variable {ws xs ys : BitWords} {e : Nat}

theorem length_toList (ws : BitWords) : ws.toList.length = ws.size := by
  have hsum : ∀ n, ws.foldl (fun n p => n + (positions p.2).length) n = n + ws.toList.length := by
    induction ws with
    | nil =>
      intro n
      rfl
    | cons p ws ih =>
      intro n
      rw [List.foldl_cons, ih]
      simp [toList]
      omega
  rw [size, hsum 0, Nat.zero_add]

/-- With members below `2 ^ 32` there are no blocks from `2 ^ 26` on. -/
theorem Canonical.block_lt (h : ws.Canonical) (hlt : ∀ e ∈ ws.toList, e < 2 ^ 32)
    {p : Nat × Word} (hp : p ∈ ws) : p.1 < 2 ^ 26 := by
  obtain ⟨e, he, hb, -⟩ := exists_mem_of_nonzero hp (h.nonzero p hp)
  have := hlt e he
  omega

/-- A word is in the vector when its block is looked up to it, unless it is zero. -/
theorem Canonical.mem_iff (h : ws.Canonical) {p : Nat × Word} :
    p ∈ ws ↔ p.2 ≠ 0 ∧ ws.wordAt p.1 = p.2 := by
  refine ⟨fun hp => ⟨h.nonzero p hp, h.wordAt hp⟩, fun ⟨hne, hw⟩ => ?_⟩
  unfold BitWords.wordAt at hw
  cases hl : ws.lookup p.1 with
  | none =>
    rw [hl] at hw
    exact absurd hw.symm hne
  | some w =>
    obtain ⟨l₁, l₂, rfl, -⟩ := List.lookup_eq_some_iff.1 hl
    have hwp : w = p.2 := by simpa [hl] using hw
    simp [hwp]

/-- Vectors with the same members look up the same words. -/
theorem Canonical.wordAt_congr (hx : xs.Canonical) (hy : ys.Canonical)
    (h : ∀ e, e ∈ xs.toList ↔ e ∈ ys.toList) (b : Nat) : xs.wordAt b = ys.wordAt b := by
  refine BitVec.eq_of_getLsbD_eq fun i hi => ?_
  have hdiv : (64 * b + i) / 64 = b := by omega
  have hmod : (64 * b + i) % 64 = i := by omega
  have hbit := hx.contains_iff.trans ((h (64 * b + i)).trans hy.contains_iff.symm)
  rw [contains_eq, contains_eq, hdiv, hmod] at hbit
  exact Bool.eq_iff_iff.2 hbit

/-- A canonical vector is the only one with its members. -/
theorem Canonical.ext (hx : xs.Canonical) (hy : ys.Canonical)
    (h : ∀ e, e ∈ xs.toList ↔ e ∈ ys.toList) : xs = ys := by
  have hmem : ∀ p, p ∈ xs ↔ p ∈ ys := by
    intro p
    rw [hx.mem_iff, hy.mem_iff, hx.wordAt_congr hy h]
  have nodup : ∀ {l : BitWords}, l.Pairwise (fun p q => p.1 < q.1) → l.Nodup := by
    intro l hl
    refine hl.imp ?_
    rintro p q hlt rfl
    exact Nat.lt_irrefl _ hlt
  refine List.Perm.eq_of_pairwise (fun p q _ _ hpq hqp => absurd hpq (Nat.lt_asymm hqp))
    hx.ascending hy.ascending ?_
  exact (List.perm_ext_iff_of_nodup (nodup hx.ascending) (nodup hy.ascending)).2 hmem

end BitWords

namespace ObjSet

variable {s t : ObjSet} {e : Nat}

theorem length_toList (s : ObjSet) : s.toList.length = s.size := by
  cases s with
  | hash xs => rfl
  | bits ws => exact ws.length_toList

/-- A canonical set is the only one of its backing with its members. -/
theorem Canonical.ext (hs : s.Canonical) (ht : t.Canonical) (hb : s.backing = t.backing)
    (h : ∀ e, e ∈ s ↔ e ∈ t) : s = t := by
  cases s with
  | hash xs =>
    cases t with
    | hash ys => exact congrArg hash (Same.toList ⟨hs, ht, h⟩)
    | bits ys => cases hb
  | bits xs =>
    cases t with
    | hash ys => cases hb
    | bits ys => exact congrArg bits (BitWords.Canonical.ext hs ht h)

/-! ## What a set represents -/

/-- The set is canonical and has the members of `S`. -/
structure Represents (s : ObjSet) (S : Finset Nat) : Prop where
  canonical : s.Canonical
  mem : ∀ e, e ∈ s ↔ e ∈ S

namespace Represents

variable {S T : Finset Nat}

theorem empty (b : Backing) : (ObjSet.empty b).Represents ∅ :=
  ⟨canonical_empty b, by simp⟩

theorem insert (h : s.Represents S) (e : Nat) : (s.insert e).2.Represents (Insert.insert e S) := by
  refine ⟨h.canonical.insert e, fun x => ?_⟩
  rw [mem_insert, h.mem, Finset.mem_insert, or_comm]

theorem erase (h : s.Represents S) (e : Nat) : (s.erase e).2.Represents (S.erase e) := by
  refine ⟨h.canonical.erase e, fun x => ?_⟩
  rw [mem_erase, h.mem, Finset.mem_erase, and_comm]

theorem union (hs : s.Represents S) (ht : t.Represents T) : (s.union t).2.Represents (S ∪ T) := by
  refine ⟨hs.canonical.union ht.canonical, fun x => ?_⟩
  rw [mem_union, hs.mem, ht.mem, Finset.mem_union]

theorem subtract (hs : s.Represents S) (ht : t.Represents T) :
    (s.subtract t).Represents (S \ T) := by
  refine ⟨hs.canonical.subtract ht.canonical, fun x => ?_⟩
  rw [hs.canonical.mem_subtract ht.canonical, hs.mem, ht.mem, Finset.mem_sdiff]

theorem intersect (hs : s.Represents S) (ht : t.Represents T) :
    (s.intersect t).Represents (S ∩ T) := by
  refine ⟨hs.canonical.intersect ht.canonical, fun x => ?_⟩
  rw [hs.canonical.mem_intersect ht.canonical, hs.mem, ht.mem, Finset.mem_inter]

theorem foldl_insert (h : s.Represents S) (xs : List Nat) :
    (xs.foldl (fun s e => (s.insert e).2) s).Represents (S ∪ xs.toFinset) := by
  induction xs generalizing s S with
  | nil => simpa using h
  | cons x xs ih =>
    rw [List.toFinset_cons, Finset.union_insert, ← Finset.insert_union]
    exact ih (h.insert x)

theorem ofList (b : Backing) (xs : List Nat) : (ObjSet.ofList b xs).Represents xs.toFinset := by
  have hfold : ObjSet.ofList b xs = xs.foldl (fun s e => (s.insert e).2) (.empty b) := by
    cases b with
    | hash =>
      have hhom : ∀ l e, (ObjSet.insert (hash l) e).2 = hash (Ascending.insert e l) :=
        fun _ _ => rfl
      exact (List.foldl_hom hash hhom).symm
    | bits =>
      have hhom : ∀ ws e, (ObjSet.insert (bits ws) e).2 = bits (ws.insert e).2 := fun _ _ => rfl
      exact (List.foldl_hom bits hhom).symm
  have h := (Represents.empty b).foldl_insert xs
  rwa [Finset.empty_union, ← hfold] at h

/-! ### What a set answers -/

/-- The members are listed once each, in ascending order. -/
theorem toList (h : s.Represents S) : s.toList = S.sort := by
  have hasc := h.canonical.toList
  have hfin : s.toList.toFinset = S := by
    ext e
    rw [List.mem_toFinset]
    exact h.mem e
  rw [← hfin]
  exact ((List.toFinset_sort _ (hasc.imp Nat.ne_of_lt)).2 (hasc.imp Nat.le_of_lt)).symm

theorem size (h : s.Represents S) : s.size = S.card := by
  rw [← length_toList, h.toList, Finset.length_sort]

theorem isEmpty_iff (h : s.Represents S) : s.isEmpty = true ↔ S = ∅ := by
  rw [h.canonical.isEmpty_iff, Finset.eq_empty_iff_forall_notMem]
  exact forall_congr' fun e => not_congr (h.mem e)

theorem contains_iff (h : s.Represents S) : s.contains e = true ↔ e ∈ S :=
  h.canonical.contains_iff.trans (h.mem e)

theorem isSuperset_iff (hs : s.Represents S) (ht : t.Represents T) :
    s.isSuperset t = true ↔ T ⊆ S := by
  rw [hs.canonical.isSuperset_iff ht.canonical]
  exact forall_congr' fun e => imp_congr (ht.mem e) (hs.mem e)

theorem intersects_iff (hs : s.Represents S) (ht : t.Represents T) :
    s.intersects t = true ↔ (S ∩ T).Nonempty := by
  rw [hs.canonical.intersects_iff ht.canonical]
  refine exists_congr fun e => ?_
  rw [Finset.mem_inter, hs.mem, ht.mem]

theorem insert_fst_iff (h : s.Represents S) (e : Nat) :
    (s.insert e).1 = true ↔ Insert.insert e S ≠ S := by
  rw [h.canonical.insert_fst_iff, h.mem]
  exact not_congr Finset.insert_eq_self.symm

theorem erase_fst_iff (h : s.Represents S) (e : Nat) :
    (s.erase e).1 = true ↔ S.erase e ≠ S := by
  rw [h.canonical.erase_fst_iff, h.mem]
  exact Finset.erase_ne_self.symm

theorem union_fst_iff (hs : s.Represents S) (ht : t.Represents T) :
    (s.union t).1 = true ↔ S ∪ T ≠ S := by
  rw [← Bool.not_eq_false, hs.canonical.union_fst_eq_false ht.canonical, ne_eq,
    Finset.union_eq_left]
  exact not_congr (forall_congr' fun e => imp_congr (ht.mem e) (hs.mem e))

/-- Two sets are equal when their backings and their members are. -/
theorem eq_iff (hs : s.Represents S) (ht : t.Represents T) :
    s = t ↔ s.backing = t.backing ∧ S = T := by
  constructor
  · rintro rfl
    refine ⟨rfl, ?_⟩
    ext e
    rw [← hs.mem, ht.mem]
  · rintro ⟨hb, rfl⟩
    exact hs.canonical.ext ht.canonical hb fun e => (hs.mem e).trans (ht.mem e).symm

end Represents

end ObjSet

/-! ## Expressions -/

/-- How a set is made from empty sets, whose members are numbers of 32 bits. -/
inductive SetExpr where
  | empty (b : Backing)
  | ofList (b : Backing) (es : List UInt32)
  | clear (x : SetExpr)
  | insert (x : SetExpr) (e : UInt32)
  | erase (x : SetExpr) (e : UInt32)
  | union (x y : SetExpr)
  | subtract (x y : SetExpr)
  | intersect (x y : SetExpr)

namespace SetExpr

/-- The points-to set that the operations leave. -/
def run : SetExpr → ObjSet
  | empty b => .empty b
  | ofList b es => .ofList b (es.map UInt32.toNat)
  | clear x => x.run.clear
  | insert x e => (x.run.insert e.toNat).2
  | erase x e => (x.run.erase e.toNat).2
  | union x y => (x.run.union y.run).2
  | subtract x y => x.run.subtract y.run
  | intersect x y => x.run.intersect y.run

/-- The finite set that the operations describe. -/
def members : SetExpr → Finset Nat
  | empty _ => ∅
  | ofList _ es => (es.map UInt32.toNat).toFinset
  | clear _ => ∅
  | insert x e => Insert.insert e.toNat x.members
  | erase x e => x.members.erase e.toNat
  | union x y => x.members ∪ y.members
  | subtract x y => x.members \ y.members
  | intersect x y => x.members ∩ y.members

/-- The backing that the leftmost operand is made with. -/
def backing : SetExpr → Backing
  | empty b | ofList b _ => b
  | clear x | insert x _ | erase x _ | union x _ | subtract x _ | intersect x _ => x.backing

variable (x y : SetExpr)

theorem run_represents : x.run.Represents x.members := by
  induction x with
  | empty b => exact .empty b
  | ofList b es => exact .ofList b _
  | clear x _ => exact .empty _
  | insert x e ih => exact ih.insert _
  | erase x e ih => exact ih.erase _
  | union x y ihx ihy => exact ihx.union ihy
  | subtract x y ihx ihy => exact ihx.subtract ihy
  | intersect x y ihx ihy => exact ihx.intersect ihy

theorem members_lt : ∀ e ∈ x.members, e < 2 ^ 32 := by
  induction x with
  | empty b => simp [members]
  | clear x _ => simp [members]
  | ofList b es =>
    simp only [members, List.mem_toFinset, List.mem_map]
    rintro e ⟨n, -, rfl⟩
    exact n.toNat_lt
  | insert x n ih =>
    intro e he
    rcases Finset.mem_insert.1 he with rfl | he
    · exact n.toNat_lt
    · exact ih e he
  | erase x n ih =>
    intro e he
    exact ih e (Finset.mem_of_mem_erase he)
  | union x y ihx ihy =>
    intro e he
    exact (Finset.mem_union.1 he).elim (ihx e) (ihy e)
  | subtract x y ihx _ =>
    intro e he
    exact ihx e (Finset.mem_sdiff.1 he).1
  | intersect x y ihx _ =>
    intro e he
    exact ihx e (Finset.mem_inter.1 he).1

theorem backing_run : x.run.backing = x.backing := by
  induction x with
  | empty b => exact ObjSet.backing_empty b
  | ofList b es => cases b <;> rfl
  | clear x ih => exact (ObjSet.backing_empty _).trans ih
  | insert x e ih => exact (ObjSet.backing_insert _ _).trans ih
  | erase x e ih => exact (ObjSet.backing_erase _ _).trans ih
  | union x y ih _ => exact (ObjSet.backing_union _ _).trans ih
  | subtract x y ih _ => exact (ObjSet.backing_subtract _ _).trans ih
  | intersect x y ih _ => exact (ObjSet.backing_intersect _ _).trans ih

end SetExpr

namespace ObjSet

/-- The set is stored in the one way there is for the members of `S`, and lists, counts and looks
up just those. -/
structure Holds (s : ObjSet) (S : Finset Nat) : Prop where
  /-- The words of a bit vector: blocks ascend and stay below `2 ^ 26`, and no word is zero. -/
  words : ∀ ws, s = .bits ws →
    ws.Pairwise (fun p q => p.1 < q.1) ∧ ∀ p ∈ ws, p.1 < 2 ^ 26 ∧ p.2 ≠ 0
  contains : ∀ e, s.contains e = true ↔ e ∈ S
  toList : s.toList = S.sort
  /-- No member that is put together from a block and a bit leaves the 32 bits. -/
  toList_lt : ∀ e ∈ s.toList, e < 2 ^ 32
  size : s.size = S.card
  isEmpty : s.isEmpty = true ↔ S = ∅

theorem Represents.holds {s : ObjSet} {S : Finset Nat} (h : s.Represents S)
    (hlt : ∀ e ∈ S, e < 2 ^ 32) : s.Holds S := by
  have hmem : ∀ e ∈ s.toList, e < 2 ^ 32 := fun e he => hlt e ((h.mem e).1 he)
  refine ⟨?_, fun e => h.contains_iff, h.toList, hmem, h.size, h.isEmpty_iff⟩
  rintro ws rfl
  have hc : ws.Canonical := h.canonical
  exact ⟨hc.ascending, fun p hp => ⟨hc.block_lt hmem hp, hc.nonzero p hp⟩⟩

end ObjSet

/-- **Operations on points-to sets are those on finite sets**, in any order and on any mix of
backings. What a making leaves holds the set that it describes, with the backing of its left
operand. An insertion, a removal and a union answer whether they change the membership of the set
that they are applied to. The comparisons say what holds of the finite sets, and two sets are the
same value just when their backings and their members are. -/
theorem operations_exact (x y : SetExpr) (e : UInt32) :
    x.run.Holds x.members ∧ x.run.backing = x.backing ∧
      ((x.run.insert e.toNat).1 = true ↔ (x.insert e).members ≠ x.members) ∧
      ((x.run.erase e.toNat).1 = true ↔ (x.erase e).members ≠ x.members) ∧
      ((x.run.union y.run).1 = true ↔ (x.union y).members ≠ x.members) ∧
      (x.run.isSuperset y.run = true ↔ y.members ⊆ x.members) ∧
      (x.run.intersects y.run = true ↔ (x.members ∩ y.members).Nonempty) ∧
      (x.run = y.run ↔ x.backing = y.backing ∧ x.members = y.members) := by
  have hx := x.run_represents
  have hy := y.run_represents
  have heq : x.run = y.run ↔ x.backing = y.backing ∧ x.members = y.members := by
    rw [hx.eq_iff hy, x.backing_run, y.backing_run]
  exact ⟨hx.holds x.members_lt, x.backing_run, hx.insert_fst_iff _, hx.erase_fst_iff _,
    hx.union_fst_iff hy, hx.isSuperset_iff hy, hx.intersects_iff hy, heq⟩

/-- The top of the range, in a bit vector that meets a list. -/
example : ((SetExpr.empty .bits).insert 4294967295 |>.union (.ofList .hash [64, 63])).run =
    .bits [(0, .twoPow 64 63), (1, 1), (67108863, .twoPow 64 63)] := by
  decide

end PointsTo
