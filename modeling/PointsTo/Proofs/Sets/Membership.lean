import PointsTo.Proofs.Sets.Words
import PointsTo.Sets.ObjSet

/-!
# Members of a points-to set

A member of a set is what the set lists. Both backings are read through this one view: the lemmas
below say of every operation what it lists, whichever backings meet, and what its answer tells of
the members. Nothing is assumed about how the sets are stored.
-/

namespace PointsTo.ObjSet

/-- A set has the members that it lists. -/
instance : Membership Nat ObjSet :=
  ⟨fun s e => e ∈ s.toList⟩

theorem mem_def {s : ObjSet} {e : Nat} : e ∈ s ↔ e ∈ s.toList :=
  Iff.rfl

@[simp] theorem not_mem_empty (b : Backing) (e : Nat) : e ∉ empty b := by
  simp [mem_def]

@[simp] theorem not_mem_clear (s : ObjSet) (e : Nat) : e ∉ s.clear :=
  not_mem_empty _ e

/-! ## Single members -/

theorem insert_fst (s : ObjSet) (e : Nat) : (s.insert e).1 = !s.contains e := by
  cases s with
  | hash xs => rfl
  | bits ws => exact ws.insert_fst e

theorem erase_fst (s : ObjSet) (e : Nat) : (s.erase e).1 = s.contains e := by
  cases s with
  | hash xs => rfl
  | bits ws => exact ws.erase_fst e

@[simp] theorem mem_insert {s : ObjSet} {x e : Nat} : e ∈ (s.insert x).2 ↔ e ∈ s ∨ e = x := by
  cases s with
  | hash xs => simp only [mem_def, insert, toList, Ascending.mem_insert]; tauto
  | bits ws => exact BitWords.mem_toList_insert

@[simp] theorem mem_erase {s : ObjSet} {x e : Nat} : e ∈ (s.erase x).2 ↔ e ∈ s ∧ e ≠ x := by
  cases s with
  | hash xs => simp [mem_def, erase, toList]
  | bits ws => exact BitWords.mem_toList_erase

theorem mem_of_contains {s : ObjSet} {e : Nat} (h : s.contains e = true) : e ∈ s := by
  cases s with
  | hash xs => simpa [mem_def, toList, contains] using h
  | bits ws => exact BitWords.mem_toList_of_contains h

/-- A member that is no news was there. -/
theorem mem_of_insert {s : ObjSet} {e : Nat} (h : (s.insert e).1 = false) : e ∈ s := by
  rw [insert_fst, Bool.not_eq_false'] at h
  exact mem_of_contains h

theorem not_mem_of_isEmpty {s : ObjSet} (h : s.isEmpty = true) (e : Nat) : e ∉ s := by
  cases s with
  | hash xs => rw [List.isEmpty_iff.1 h]; simp [mem_def, toList]
  | bits ws => rw [List.isEmpty_iff.1 h]; simp [mem_def, toList, BitWords.toList]

/-! ## Member by member -/

theorem mem_foldl_insertNoting {xs : List Nat} {r : Bool × ObjSet} {e : Nat} :
    e ∈ (xs.foldl insertNoting r).2 ↔ e ∈ r.2 ∨ e ∈ xs := by
  induction xs generalizing r with
  | nil => simp
  | cons x xs ih =>
    rw [List.foldl_cons, ih, List.mem_cons]
    simp only [insertNoting, Prod.map_snd, id_eq, mem_insert]
    tauto

theorem mem_insertAll {s : ObjSet} {xs : List Nat} {e : Nat} :
    e ∈ (s.insertAll xs).2 ↔ e ∈ s ∨ e ∈ xs :=
  mem_foldl_insertNoting

theorem mem_eraseAll {s : ObjSet} {xs : List Nat} {e : Nat} :
    e ∈ s.eraseAll xs ↔ e ∈ s ∧ e ∉ xs := by
  unfold eraseAll
  induction xs generalizing s with
  | nil => simp
  | cons x xs ih => rw [List.foldl_cons, ih, mem_erase, List.mem_cons]; tauto

theorem mem_of_foldl_insertNoting {xs : List Nat} {r : Bool × ObjSet}
    (h : (xs.foldl insertNoting r).1 = false) : r.1 = false ∧ ∀ e ∈ xs, e ∈ r.2 := by
  induction xs generalizing r with
  | nil => exact ⟨h, by simp⟩
  | cons x xs ih =>
    obtain ⟨hnews, hrest⟩ := ih h
    simp only [insertNoting, Prod.map_fst, Bool.or_eq_false_iff] at hnews
    have hx : x ∈ r.2 := mem_of_insert hnews.2
    refine ⟨hnews.1, fun e he => ?_⟩
    rcases List.mem_cons.1 he with rfl | he
    · exact hx
    · rcases mem_insert.1 (hrest e he) with he | rfl
      · exact he
      · exact hx

/-- Adding member by member brings no news only when all were there. -/
theorem mem_of_insertAll {s : ObjSet} {xs : List Nat} (h : (s.insertAll xs).1 = false) :
    ∀ e ∈ xs, e ∈ s :=
  (mem_of_foldl_insertNoting h).2

/-! ## Two sets -/

@[simp] theorem mem_union {s t : ObjSet} {e : Nat} : e ∈ (s.union t).2 ↔ e ∈ s ∨ e ∈ t := by
  cases s <;> cases t
  · exact Ascending.mem_union
  · exact mem_insertAll
  · exact mem_insertAll
  · exact BitWords.mem_toList_union

/-- A set that another does not make larger has all members of it. -/
theorem mem_of_union {s t : ObjSet} (h : (s.union t).1 = false) {e : Nat} (he : e ∈ t) :
    e ∈ s := by
  cases s with
  | hash xs =>
    cases t with
    | hash ys =>
      have hlength : (Ascending.union xs ys).length = xs.length := by simpa [union] using h
      exact Ascending.mem_of_length_union hlength he
    | bits ys => exact mem_of_insertAll h e he
  | bits xs =>
    cases t with
    | hash ys => exact mem_of_insertAll h e he
    | bits ys => exact BitWords.mem_toList_of_union h he

/-- Two lists are subtracted alike, whether or not an empty one is passed over. -/
theorem subtract_hash (xs ys : List Nat) :
    (hash xs).subtract (hash ys) = hash (Ascending.subtract xs ys) := by
  rw [subtract]
  split
  · rename_i hempty
    rw [List.isEmpty_iff.1 hempty]
    exact congrArg hash (List.filter_eq_self.2 fun _ _ => rfl).symm
  · rfl

theorem mem_of_mem_subtract {s t : ObjSet} {e : Nat} (h : e ∈ s.subtract t) : e ∈ s := by
  cases s <;> cases t
  · rw [subtract_hash] at h
    exact (Ascending.mem_subtract.1 h).1
  · exact (mem_eraseAll.1 h).1
  · exact (mem_eraseAll.1 h).1
  · exact BitWords.mem_toList_of_subtract h

theorem mem_subtract_or {s t : ObjSet} {e : Nat} (h : e ∈ s) : e ∈ s.subtract t ∨ e ∈ t := by
  by_cases ht : e ∈ t
  · exact Or.inr ht
  · cases s <;> cases t
    · rw [subtract_hash]
      exact Or.inl (Ascending.mem_subtract.2 ⟨h, ht⟩)
    · exact Or.inl (mem_eraseAll.2 ⟨h, ht⟩)
    · exact Or.inl (mem_eraseAll.2 ⟨h, ht⟩)
    · exact BitWords.mem_toList_subtract_or h

end PointsTo.ObjSet
