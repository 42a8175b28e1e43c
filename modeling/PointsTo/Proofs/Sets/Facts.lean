import PointsTo.Proofs.Sets.Membership
import PointsTo.Sets.DiffStore

/-!
# What the fact store records

All operations that bring facts to a key have one shape, `Gains`: propagated facts stay as they
are, fresh facts are only added, they are added to the one key, and they come from a given source.
Afterwards the key knows the whole source. An operation that answers `false` has added nothing, so
it is safe not to queue the key.

Two operations stand apart. `reseed` makes propagated facts fresh again, and `flush` is the only
one that propagates.
-/

namespace PointsTo.DiffStore

variable {s : DiffStore} {key other o : Nat}

/-! ## Reading back -/

@[simp] theorem freshOf_setFresh (s : DiffStore) (key other : Nat) (facts : ObjSet) :
    (s.setFresh key facts).freshOf other = if key = other then facts else s.freshOf other := by
  unfold freshOf
  rw [fresh?_setFresh]
  split <;> rfl

@[simp] theorem propagatedOf_setFresh (s : DiffStore) (key other : Nat) (facts : ObjSet) :
    (s.setFresh key facts).propagatedOf other = s.propagatedOf other :=
  rfl

@[simp] theorem propagatedOf_setPropagated (s : DiffStore) (key other : Nat) (facts : ObjSet) :
    (s.setPropagated key facts).propagatedOf other =
      if key = other then facts else s.propagatedOf other := by
  unfold propagatedOf
  rw [propagated?_setPropagated]
  split <;> rfl

@[simp] theorem freshOf_setPropagated (s : DiffStore) (key other : Nat) (facts : ObjSet) :
    (s.setPropagated key facts).freshOf other = s.freshOf other :=
  rfl

theorem mem_all : o ∈ s.all key ↔ o ∈ s.propagatedOf key ∨ o ∈ s.freshOf key := by
  simp [all, emptySet]

/-- A new store has no facts. -/
@[simp] theorem not_mem_freshOf_new (backing : Backing) (key o : Nat) :
    o ∉ ({ backing } : DiffStore).freshOf key := by
  simp [freshOf, fresh?, emptySet]

@[simp] theorem not_mem_propagatedOf_new (backing : Backing) (key o : Nat) :
    o ∉ ({ backing } : DiffStore).propagatedOf key := by
  simp [propagatedOf, propagated?, emptySet]

theorem not_mem_freshOf_of_hasFresh (h : s.hasFresh key = false) : o ∉ s.freshOf key := by
  refine ObjSet.not_mem_of_isEmpty ?_ o
  simpa [hasFresh] using h

/-! ## Keys -/

/-- There is an entry for the key. -/
def HasKey (s : DiffStore) (key : Nat) : Prop :=
  s.fresh? key ≠ none ∨ s.propagated? key ≠ none

theorem not_hasKey_new (backing : Backing) (key : Nat) :
    ¬({ backing } : DiffStore).HasKey key := by
  simp [HasKey, fresh?, propagated?]

theorem hasKey_setFresh {facts : ObjSet} (h : (s.setFresh key facts).HasKey other) :
    s.HasKey other ∨ other = key := by
  unfold HasKey at h ⊢
  rw [fresh?_setFresh, propagated?_setFresh] at h
  split at h
  · exact Or.inr (Eq.symm ‹_›)
  · exact Or.inl h

theorem hasKey_setPropagated {facts : ObjSet} (h : (s.setPropagated key facts).HasKey other) :
    s.HasKey other ∨ other = key := by
  unfold HasKey at h ⊢
  rw [fresh?_setPropagated, propagated?_setPropagated] at h
  split at h
  · exact Or.inr (Eq.symm ‹_›)
  · exact Or.inl h

/-- An operation on a key makes entries for it only. -/
theorem hasKey_add {elem : Nat} (h : (s.add key elem).2.HasKey other) :
    s.HasKey other ∨ other = key := by
  unfold add at h
  split at h
  · exact Or.inl h
  · exact hasKey_setFresh h

theorem hasKey_addAll {facts : ObjSet} (h : (s.addAll key facts).2.HasKey other) :
    s.HasKey other ∨ other = key := by
  unfold addAll at h
  dsimp only at h
  split at h
  · exact Or.inl h
  · exact hasKey_setFresh h

theorem hasKey_addKnown {src : Nat} (h : (s.addKnown key src).2.HasKey other) :
    s.HasKey other ∨ other = key := by
  unfold addKnown at h
  split at h
  · exact Or.inl h
  · exact hasKey_addAll h

theorem hasKey_reseed (h : (s.reseed key).2.HasKey other) : s.HasKey other ∨ other = key := by
  unfold reseed at h
  split at h
  · exact Or.inl h
  · exact hasKey_setFresh h

/-- What is flushed has an entry already. -/
theorem hasKey_flush (h : (s.flush key).HasKey other) : s.HasKey other := by
  unfold flush at h
  split at h
  · exact h
  · rename_i hsome
    have hkey : s.HasKey key := by
      refine Or.inl fun hnone => hsome ?_
      simp [freshOf, hnone, emptySet]
    rcases hasKey_setFresh h with h | rfl
    · rcases hasKey_setPropagated h with h | rfl
      · exact h
      · exact hkey
    · exact hkey

/-! ## Gaining facts -/

/-- The store and the answer after `key` was brought the facts that satisfy `P`. -/
structure Gains (s : DiffStore) (key : Nat) (P : Nat → Prop) (r : Bool × DiffStore) : Prop where
  /-- Nothing is propagated by this. -/
  propagated : ∀ m, r.2.propagatedOf m = s.propagatedOf m
  /-- No fresh fact is lost. -/
  kept : ∀ m o, o ∈ s.freshOf m → o ∈ r.2.freshOf m
  /-- What is newly fresh is at the key and from the source. -/
  new : ∀ m o, o ∈ r.2.freshOf m → o ∈ s.freshOf m ∨ m = key ∧ P o
  /-- The key knows the whole source. -/
  known : ∀ o, P o → o ∈ r.2.all key
  /-- The answer `false` means that nothing is newly fresh. -/
  quiet : r.1 = false → ∀ m o, o ∈ r.2.freshOf m → o ∈ s.freshOf m

/-- Nothing has to be done if the key knows everything. -/
theorem Gains.unchanged {P : Nat → Prop} (h : ∀ o, P o → o ∈ s.all key) :
    s.Gains key P (false, s) where
  propagated _ := rfl
  kept _ _ h := h
  new _ _ h := Or.inl h
  known := h
  quiet _ _ _ h := h

/-- The fresh facts of the key become others: those it had, and some of the source, of which the
others are propagated already. -/
theorem Gains.replaceFresh {P : Nat → Prop} {r : Bool × ObjSet}
    (kept : ∀ o, o ∈ s.freshOf key → o ∈ r.2)
    (new : ∀ o, o ∈ r.2 → o ∈ s.freshOf key ∨ P o)
    (known : ∀ o, P o → o ∈ r.2 ∨ o ∈ s.propagatedOf key)
    (quiet : r.1 = false → ∀ o, o ∈ r.2 → o ∈ s.freshOf key) :
    s.Gains key P (s.replaceFresh key r) where
  propagated _ := rfl
  kept m o h := by
    by_cases hm : key = m
    · subst hm; simpa using kept o h
    · simpa [hm] using h
  new m o h := by
    by_cases hm : key = m
    · subst hm
      rcases new o (by simpa using h) with h | h
      · exact Or.inl h
      · exact Or.inr ⟨rfl, h⟩
    · exact Or.inl (by simpa [hm] using h)
  known o h := by
    rw [mem_all]
    rcases known o h with h | h
    · exact Or.inr (by simpa using h)
    · exact Or.inl h
  quiet ha m o h := by
    by_cases hm : key = m
    · subst hm; exact quiet ha o (by simpa using h)
    · simpa [hm] using h

theorem add_gains (s : DiffStore) (key elem : Nat) : s.Gains key (· = elem) (s.add key elem) := by
  unfold add
  split
  · rename_i h
    refine .unchanged ?_
    rintro o rfl
    exact mem_all.2 (Or.inl (ObjSet.mem_of_contains h))
  · refine .replaceFresh ?_ ?_ ?_ ?_
    · intro o h
      exact ObjSet.mem_insert.2 (Or.inl h)
    · intro o h
      exact ObjSet.mem_insert.1 h
    · intro o h
      exact Or.inl (ObjSet.mem_insert.2 (Or.inr h))
    · intro ha o h
      rcases ObjSet.mem_insert.1 h with h | rfl
      · exact h
      · exact ObjSet.mem_of_insert ha

theorem mem_of_mem_unpropagated {facts : ObjSet} (h : o ∈ s.unpropagated key facts) :
    o ∈ facts := by
  unfold unpropagated at h
  split at h
  · exact ObjSet.mem_of_mem_subtract h
  · exact h

theorem mem_unpropagated_or {facts : ObjSet} (h : o ∈ facts) :
    o ∈ s.unpropagated key facts ∨ o ∈ s.propagatedOf key := by
  unfold unpropagated
  cases hp : s.propagated? key with
  | none => exact Or.inl h
  | some known =>
    rcases ObjSet.mem_subtract_or (t := known) h with h | h
    · exact Or.inl h
    · exact Or.inr (by simpa [propagatedOf, hp] using h)

theorem addAll_gains (s : DiffStore) (key : Nat) (facts : ObjSet) :
    s.Gains key (· ∈ facts) (s.addAll key facts) := by
  unfold addAll
  dsimp only
  split
  · rename_i he
    refine .unchanged fun o h => ?_
    have hor : o ∈ s.unpropagated key facts ∨ o ∈ s.propagatedOf key := mem_unpropagated_or h
    rcases hor with h | h
    · exact absurd h (ObjSet.not_mem_of_isEmpty he o)
    · exact mem_all.2 (Or.inl h)
  · refine .replaceFresh ?_ ?_ ?_ ?_
    · intro o h
      exact ObjSet.mem_union.2 (Or.inl h)
    · intro o h
      exact (ObjSet.mem_union.1 h).imp_right mem_of_mem_unpropagated
    · intro o h
      exact (mem_unpropagated_or h).imp_left fun h => ObjSet.mem_union.2 (Or.inr h)
    · intro ha o h
      rcases ObjSet.mem_union.1 h with h | h
      · exact h
      · exact ObjSet.mem_of_union ha h

theorem addKnown_gains (s : DiffStore) (dst src : Nat) :
    s.Gains dst (· ∈ s.all src) (s.addKnown dst src) := by
  have hall : ∀ o, o ∈ ((s.emptySet.union (s.freshOf src)).2.union (s.propagatedOf src)).2 ↔
      o ∈ s.all src := by
    intro o
    simp only [mem_all, ObjSet.mem_union, emptySet, ObjSet.not_mem_empty]
    tauto
  unfold addKnown
  split
  · rename_i h
    subst h
    exact .unchanged fun _ h => h
  · have h := s.addAll_gains dst ((s.emptySet.union (s.freshOf src)).2.union (s.propagatedOf src)).2
    simpa only [hall] using h

/-- Everything the key knows counts as a source for it. -/
theorem reseed_gains (s : DiffStore) (key : Nat) :
    s.Gains key (· ∈ s.propagatedOf key) (s.reseed key) := by
  unfold reseed
  split
  · exact .unchanged fun o h => mem_all.2 (Or.inl h)
  · refine .replaceFresh (r := (true, _)) ?_ ?_ ?_ (fun h => nomatch h)
    · intro o h
      exact ObjSet.mem_union.2 (Or.inl h)
    · intro o h
      exact ObjSet.mem_union.1 h
    · intro o h
      exact Or.inr h

theorem mem_freshOf_reseed (h : o ∈ s.propagatedOf key) : o ∈ (s.reseed key).2.freshOf key := by
  unfold reseed
  split
  · rename_i he
    exact absurd h (ObjSet.not_mem_of_isEmpty he o)
  · simp [h]

/-! ## Propagating -/

theorem mem_propagatedOf_flush : o ∈ (s.flush key).propagatedOf other ↔
    o ∈ s.propagatedOf other ∨ key = other ∧ o ∈ s.freshOf key := by
  unfold flush
  split
  · rename_i he
    have hn := ObjSet.not_mem_of_isEmpty he o
    tauto
  · by_cases hk : key = other
    · subst hk; simp
    · simp [hk]

theorem mem_freshOf_flush :
    o ∈ (s.flush key).freshOf other ↔ key ≠ other ∧ o ∈ s.freshOf other := by
  unfold flush
  split
  · rename_i he
    have hn := ObjSet.not_mem_of_isEmpty he o
    constructor
    · intro h
      refine ⟨?_, h⟩
      rintro rfl
      exact hn h
    · exact fun h => h.2
  · by_cases hk : key = other
    · subst hk; simp [emptySet]
    · simp [hk]

theorem mem_all_flush : o ∈ (s.flush key).all other ↔ o ∈ s.all other := by
  rw [mem_all, mem_all, mem_propagatedOf_flush, mem_freshOf_flush]
  by_cases hk : key = other
  · subst hk; tauto
  · tauto

end PointsTo.DiffStore
