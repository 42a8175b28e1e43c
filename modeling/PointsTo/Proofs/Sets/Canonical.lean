import PointsTo.Proofs.Sets.Membership
import PointsTo.Proofs.Sets.Merges

/-!
# Canonical sets

Every set that the operations make is canonical: a list ascends, and a bit vector is canonical in
its own way. A canonical set lists its members in ascending order, so what it answers is a matter of
its members alone, whatever the backing. This is what `Same` is for: two canonical sets with the
same members, of which no operation can tell the one from the other.
-/

namespace PointsTo.ObjSet

def Canonical : ObjSet → Prop
  | hash xs => xs.Pairwise (· < ·)
  | bits ws => ws.Canonical

variable {s s' t t' : ObjSet} {e : Nat}

theorem canonical_empty (b : Backing) : (empty b).Canonical := by
  cases b with
  | hash => exact .nil
  | bits => exact BitWords.canonical_nil

namespace Canonical

theorem toList (h : s.Canonical) : s.toList.Pairwise (· < ·) := by
  cases s with
  | hash xs => exact h
  | bits ws => exact BitWords.Canonical.toList h

theorem insert (h : s.Canonical) (e : Nat) : (s.insert e).2.Canonical := by
  cases s with
  | hash xs => exact Ascending.pairwise_insert h
  | bits ws => exact BitWords.Canonical.insert h e

theorem erase (h : s.Canonical) (e : Nat) : (s.erase e).2.Canonical := by
  cases s with
  | hash xs => exact Ascending.pairwise_subtract h
  | bits ws => exact BitWords.Canonical.erase h e

theorem foldl_insertNoting {r : Bool × ObjSet} (h : r.2.Canonical) (xs : List Nat) :
    (xs.foldl insertNoting r).2.Canonical := by
  induction xs generalizing r with
  | nil => exact h
  | cons x xs ih => exact ih (h.insert x)

theorem insertAll (h : s.Canonical) (xs : List Nat) : (s.insertAll xs).2.Canonical :=
  foldl_insertNoting h xs

theorem eraseAll (h : s.Canonical) (xs : List Nat) : (s.eraseAll xs).Canonical := by
  unfold ObjSet.eraseAll
  induction xs generalizing s with
  | nil => exact h
  | cons x xs ih => exact ih (h.erase x)

theorem union (hs : s.Canonical) (ht : t.Canonical) : (s.union t).2.Canonical := by
  cases s <;> cases t
  · exact Ascending.pairwise_union hs
  · exact hs.insertAll _
  · exact hs.insertAll _
  · exact BitWords.Canonical.union hs ht

theorem subtract (hs : s.Canonical) (ht : t.Canonical) : (s.subtract t).Canonical := by
  cases s <;> cases t
  · rw [subtract_hash]
    exact Ascending.pairwise_subtract hs
  · exact hs.eraseAll _
  · exact hs.eraseAll _
  · exact BitWords.Canonical.subtract hs ht

theorem intersect (hs : s.Canonical) (ht : t.Canonical) : (s.intersect t).Canonical := by
  cases s <;> cases t
  · exact Ascending.pairwise_intersect hs
  · exact hs.eraseAll _
  · exact hs.eraseAll _
  · exact BitWords.Canonical.intersect hs ht

theorem contains_iff (h : s.Canonical) : s.contains e = true ↔ e ∈ s := by
  cases s with
  | hash xs => simp [mem_def, ObjSet.toList, contains]
  | bits ws => exact BitWords.Canonical.contains_iff h

/-- An insertion answers whether the member was missing. -/
theorem insert_fst_iff (h : s.Canonical) : (s.insert e).1 = true ↔ e ∉ s := by
  rw [insert_fst, Bool.not_eq_true', ← Bool.not_eq_true, h.contains_iff]

/-- A removal answers whether the member was there. -/
theorem erase_fst_iff (h : s.Canonical) : (s.erase e).1 = true ↔ e ∈ s := by
  rw [erase_fst, h.contains_iff]

theorem mem_subtract (hs : s.Canonical) (ht : t.Canonical) :
    e ∈ s.subtract t ↔ e ∈ s ∧ e ∉ t := by
  cases s <;> cases t
  · rw [subtract_hash]
    exact Ascending.mem_subtract
  · exact mem_eraseAll
  · exact mem_eraseAll
  · exact BitWords.Canonical.mem_subtract hs ht

theorem mem_intersect (hs : s.Canonical) (ht : t.Canonical) :
    e ∈ s.intersect t ↔ e ∈ s ∧ e ∈ t := by
  -- Operands of different backings: what the second set lacks is listed first, then taken out.
  have meet : e ∈ s.eraseAll (s.toList.filter fun e => !t.contains e) ↔ e ∈ s ∧ e ∈ t := by
    rw [mem_eraseAll, List.mem_filter, Bool.not_eq_true', ← Bool.not_eq_true, ht.contains_iff,
      ← mem_def]
    tauto
  cases s <;> cases t
  · exact Ascending.mem_intersect
  · exact meet
  · exact meet
  · exact BitWords.Canonical.mem_intersect hs ht

theorem isEmpty_iff (h : s.Canonical) : s.isEmpty = true ↔ ∀ e, e ∉ s := by
  refine ⟨fun he e => not_mem_of_isEmpty he e, fun hno => ?_⟩
  cases s with
  | hash xs => exact List.isEmpty_iff.2 (List.eq_nil_iff_forall_not_mem.2 hno)
  | bits ws =>
    refine List.isEmpty_iff.2 (List.eq_nil_iff_forall_not_mem.2 fun p hp => ?_)
    obtain ⟨e, he, -⟩ := BitWords.exists_mem_of_nonzero hp (BitWords.Canonical.nonzero h p hp)
    exact hno e he

theorem isSuperset_iff (hs : s.Canonical) (ht : t.Canonical) :
    s.isSuperset t = true ↔ ∀ e ∈ t, e ∈ s := by
  have meet : t.toList.all s.contains = true ↔ ∀ e ∈ t, e ∈ s := by
    rw [List.all_eq_true]
    exact forall₂_congr fun _ _ => hs.contains_iff
  cases s <;> cases t
  · exact meet
  · exact meet
  · exact meet
  · exact BitWords.Canonical.isSuperset_iff hs ht

theorem foldl_insertNoting_fst {xs : List Nat} {r : Bool × ObjSet} (hr : r.2.Canonical)
    (h : ∀ e ∈ xs, e ∈ r.2) : (xs.foldl insertNoting r).1 = r.1 := by
  induction xs generalizing r with
  | nil => rfl
  | cons x xs ih =>
    have hx : (r.2.insert x).1 = false := by
      rw [insert_fst, hr.contains_iff.2 (h x (by simp)), Bool.not_true]
    have hr' : (insertNoting r x).2.Canonical := hr.insert x
    have hrest : ∀ e ∈ xs, e ∈ (insertNoting r x).2 := fun e he =>
      mem_insert.2 (Or.inl (h e (by simp [he])))
    rw [List.foldl_cons, ih hr' hrest]
    simp [insertNoting, hx]

/-- Adding members that are there brings no news. -/
theorem insertAll_fst_eq_false {xs : List Nat} (hs : s.Canonical) (h : ∀ e ∈ xs, e ∈ s) :
    (s.insertAll xs).1 = false :=
  foldl_insertNoting_fst hs h

/-- A union answers whether the first set grew. -/
theorem union_fst_eq_false (hs : s.Canonical) (ht : t.Canonical) :
    (s.union t).1 = false ↔ ∀ e ∈ t, e ∈ s := by
  refine ⟨fun h e he => mem_of_union h he, fun h => ?_⟩
  cases s with
  | hash xs =>
    cases t with
    | hash ys =>
      have hsame : Ascending.union xs ys = xs := Ascending.union_of_subset hs h
      simp [ObjSet.union, hsame]
    | bits ys => exact hs.insertAll_fst_eq_false h
  | bits xs =>
    cases t with
    | hash ys => exact hs.insertAll_fst_eq_false h
    | bits ys => exact (BitWords.Canonical.union_fst_eq_false hs ht).2 h

theorem intersects_iff (hs : s.Canonical) (ht : t.Canonical) :
    s.intersects t = true ↔ ∃ e ∈ s, e ∈ t := by
  have meet : t.toList.any s.contains = true ↔ ∃ e ∈ s, e ∈ t := by
    rw [List.any_eq_true]
    refine exists_congr fun e => ?_
    rw [hs.contains_iff]
    exact and_comm
  cases s <;> cases t
  · exact Ascending.intersects_iff
  · exact meet
  · exact meet
  · rw [← Bool.not_eq_false, ObjSet.intersects, BitWords.Canonical.intersects_eq_false hs ht]
    push Not
    rfl

end Canonical

/-! ## Sets that no operation tells apart -/

/-- Canonical sets with the same members. -/
structure Same (s s' : ObjSet) : Prop where
  left : s.Canonical
  right : s'.Canonical
  mem : ∀ e, e ∈ s ↔ e ∈ s'

theorem same_empty (b b' : Backing) : (empty b).Same (empty b') :=
  ⟨canonical_empty b, canonical_empty b', fun e => by simp⟩

namespace Same

/-- The members are listed in the same order. -/
theorem toList (h : s.Same s') : s.toList = s'.toList := by
  have nodup : ∀ {xs : List Nat}, xs.Pairwise (· < ·) → xs.Nodup := fun h => h.imp Nat.ne_of_lt
  refine List.Perm.eq_of_pairwise (fun a b _ _ hab hba => absurd hab (Nat.lt_asymm hba))
    h.left.toList h.right.toList ?_
  exact (List.perm_ext_iff_of_nodup (nodup h.left.toList) (nodup h.right.toList)).2 h.mem

theorem contains (h : s.Same s') (e : Nat) : s.contains e = s'.contains e :=
  Bool.eq_iff_iff.2 ((h.left.contains_iff.trans (h.mem e)).trans h.right.contains_iff.symm)

theorem isEmpty (h : s.Same s') : s.isEmpty = s'.isEmpty := by
  refine Bool.eq_iff_iff.2 ?_
  rw [h.left.isEmpty_iff, h.right.isEmpty_iff]
  exact forall_congr' fun e => not_congr (h.mem e)

/-- The answers of a union are the same. -/
theorem union_fst (hs : s.Same s') (ht : t.Same t') : (s.union t).1 = (s'.union t').1 := by
  refine Bool.eq_iff_iff.2 (not_iff_not.1 ?_)
  rw [Bool.not_eq_true, Bool.not_eq_true, hs.left.union_fst_eq_false ht.left,
    hs.right.union_fst_eq_false ht.right]
  exact forall_congr' fun e => imp_congr (ht.mem e) (hs.mem e)

theorem intersects (hs : s.Same s') (ht : t.Same t') : s.intersects t = s'.intersects t' := by
  refine Bool.eq_iff_iff.2 ?_
  rw [hs.left.intersects_iff ht.left, hs.right.intersects_iff ht.right]
  exact exists_congr fun e => and_congr (hs.mem e) (ht.mem e)

theorem insert_fst (h : s.Same s') (e : Nat) : (s.insert e).1 = (s'.insert e).1 := by
  rw [ObjSet.insert_fst, ObjSet.insert_fst, h.contains]

theorem insert (h : s.Same s') (e : Nat) : (s.insert e).2.Same (s'.insert e).2 :=
  ⟨h.left.insert e, h.right.insert e, fun x => by rw [mem_insert, mem_insert, h.mem]⟩

theorem union (hs : s.Same s') (ht : t.Same t') : (s.union t).2.Same (s'.union t').2 :=
  ⟨hs.left.union ht.left, hs.right.union ht.right,
    fun x => by rw [mem_union, mem_union, hs.mem, ht.mem]⟩

theorem eraseAll (h : s.Same s') (xs : List Nat) : (s.eraseAll xs).Same (s'.eraseAll xs) :=
  ⟨h.left.eraseAll xs, h.right.eraseAll xs,
    fun x => by rw [mem_eraseAll, mem_eraseAll, h.mem]⟩

end Same

end PointsTo.ObjSet
