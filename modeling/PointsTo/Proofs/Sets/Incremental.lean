import PointsTo.Proofs.Lockstep.States
import PointsTo.Proofs.Sets.Algebra

/-!
# The fact store as two finite sets a key

Whatever is done to a new store, every key has a finite set of fresh and a finite set of propagated
facts, and each operation does to them what it says (`Faithful`): facts brought to a key become
known to it, the answer tells whether that is news, and nothing else changes.

Sets answer truthfully whether they grow as long as they are canonical. A store whose sets are all
canonical is one that is alike to itself, and every operation leaves such a store.
-/

namespace PointsTo.DiffStore

variable {s : DiffStore} {key dst src o : Nat} {facts : ObjSet}

/-! ## Canonical stores -/

theorem fresh_canonical (h : s.Alike s) (key : Nat) : (s.freshOf key).Canonical :=
  (h.fresh key).left

theorem propagated_canonical (h : s.Alike s) (key : Nat) : (s.propagatedOf key).Canonical :=
  (h.propagated key).left

theorem alike_setFresh (h : s.Alike s) (hf : facts.Canonical) (key : Nat) :
    (s.setFresh key facts).Alike (s.setFresh key facts) :=
  h.setFresh ⟨hf, hf, fun _ => .rfl⟩ key

theorem alike_addAll (h : s.Alike s) (hf : facts.Canonical) (dst : Nat) :
    (s.addAll dst facts).2.Alike (s.addAll dst facts).2 :=
  (h.addAll ⟨hf, hf, fun _ => .rfl⟩ dst).store

/-- The answer `true` means that some fact was not known. -/
theorem exists_new_of_addAll (h : s.Alike s) (hf : facts.Canonical)
    (ha : (s.addAll dst facts).1 = true) : ∃ o ∈ (s.addAll dst facts).2.all dst, o ∉ s.all dst := by
  have hin : ∀ o, o ∈ s.unpropagated dst facts ↔ o ∈ facts ∧ o ∉ s.propagatedOf dst :=
    (Alike.unpropagated_canonical hf (h.propagated dst).left).2
  have hgrows : ((s.freshOf dst).union (s.unpropagated dst facts)).1 = true := by
    unfold addAll at ha
    dsimp only at ha
    split at ha
    · cases ha
    · exact ha
  obtain ⟨o, ho, hno⟩ : ∃ o ∈ s.unpropagated dst facts, o ∉ s.freshOf dst := by
    by_contra hall
    push Not at hall
    have hin := (Alike.unpropagated_canonical hf (h.propagated dst).left).1
    rw [((h.fresh dst).left.union_fst_eq_false hin).2 hall] at hgrows
    cases hgrows
  refine ⟨o, (s.addAll_gains dst facts).known o ((hin o).1 ho).1, fun hold => ?_⟩
  exact (mem_all.1 hold).elim ((hin o).1 ho).2 hno

theorem exists_new_of_addKnown (h : s.Alike s) (ha : (s.addKnown dst src).1 = true) :
    ∃ o ∈ (s.addKnown dst src).2.all dst, o ∉ s.all dst := by
  unfold addKnown at ha ⊢
  split at ha
  · cases ha
  · rename_i hne
    rw [if_neg hne]
    have hempty := ObjSet.canonical_empty s.backing
    exact exists_new_of_addAll h
      ((hempty.union (h.fresh src).left).union (h.propagated src).left) ha

theorem exists_new_of_add {elem : Nat} (h : s.Alike s) (ha : (s.add key elem).1 = true) :
    ∃ o ∈ (s.add key elem).2.all key, o ∉ s.all key := by
  refine ⟨elem, (s.add_gains key elem).known elem rfl, fun hold => ?_⟩
  unfold add at ha
  rcases mem_all.1 hold with hold | hold
  · rw [if_pos ((propagated_canonical h key).contains_iff.2 hold)] at ha
    cases ha
  · split at ha
    · cases ha
    · exact (fresh_canonical h key).insert_fst_iff.1 ha hold

/-- The fresh facts of a key without an entry are none, so there is nothing to pass on. -/
theorem addFresh_gains (s : DiffStore) (dst src : Nat) :
    s.Gains dst (· ∈ s.freshOf src) (s.addFresh dst src) := by
  unfold addFresh
  split
  · rename_i h
    subst h
    exact .unchanged fun _ h => mem_all.2 (Or.inr h)
  · cases hf : s.fresh? src with
    | none => exact .unchanged fun o h => absurd h (by simp [freshOf, hf, emptySet])
    | some facts =>
      have h := s.addAll_gains dst facts
      simpa only [freshOf, hf, Option.getD_some] using h

theorem exists_new_of_addFresh (h : s.Alike s) (ha : (s.addFresh dst src).1 = true) :
    ∃ o ∈ (s.addFresh dst src).2.all dst, o ∉ s.all dst := by
  have hc := fresh_canonical h src
  unfold addFresh at ha ⊢
  split at ha
  · cases ha
  · rename_i hne
    rw [if_neg hne]
    cases hf : s.fresh? src with
    | none =>
      rw [hf] at ha
      cases ha
    | some facts =>
      rw [hf] at ha
      rw [freshOf, hf] at hc
      exact exists_new_of_addAll h hc ha

theorem alike_addFresh (h : s.Alike s) (dst src : Nat) :
    (s.addFresh dst src).2.Alike (s.addFresh dst src).2 := by
  have hc := fresh_canonical h src
  unfold addFresh
  split
  · exact h
  · cases hf : s.fresh? src with
    | none => exact h
    | some facts =>
      rw [freshOf, hf] at hc
      exact alike_addAll h hc dst

theorem alike_dropFresh (h : s.Alike s) (key elem : Nat) :
    (s.dropFresh key elem).2.Alike (s.dropFresh key elem).2 := by
  have hc := fresh_canonical h key
  unfold dropFresh
  cases hf : s.fresh? key with
  | none => exact h
  | some facts =>
    rw [freshOf, hf] at hc
    exact alike_setFresh h (hc.erase elem) key

theorem alike_clearFresh (h : s.Alike s) (key : Nat) :
    (s.clearFresh key).Alike (s.clearFresh key) := by
  unfold clearFresh
  split
  · exact h
  · exact alike_setFresh h (ObjSet.canonical_empty _) key

/-! ## Fresh and propagated facts as finite sets -/

def freshSet (s : DiffStore) (key : Nat) : Finset Nat :=
  (s.freshOf key).toList.toFinset

def propagatedSet (s : DiffStore) (key : Nat) : Finset Nat :=
  (s.propagatedOf key).toList.toFinset

/-- All that is known about a key. -/
def allSet (s : DiffStore) (key : Nat) : Finset Nat :=
  s.propagatedSet key ∪ s.freshSet key

@[simp] theorem mem_freshSet : o ∈ s.freshSet key ↔ o ∈ s.freshOf key :=
  List.mem_toFinset

@[simp] theorem mem_propagatedSet : o ∈ s.propagatedSet key ↔ o ∈ s.propagatedOf key :=
  List.mem_toFinset

theorem mem_allSet : o ∈ s.allSet key ↔ o ∈ s.all key := by
  simp [allSet, mem_all]

theorem freshOf_represents (h : s.Alike s) (key : Nat) :
    (s.freshOf key).Represents (s.freshSet key) :=
  ⟨fresh_canonical h key, fun _ => mem_freshSet.symm⟩

theorem propagatedOf_represents (h : s.Alike s) (key : Nat) :
    (s.propagatedOf key).Represents (s.propagatedSet key) :=
  ⟨propagated_canonical h key, fun _ => mem_propagatedSet.symm⟩

theorem propagatedSet_congr {s' : DiffStore} (h : s'.propagatedOf key = s.propagatedOf key) :
    s'.propagatedSet key = s.propagatedSet key := by
  unfold propagatedSet
  rw [h]

/-! ## What an operation does -/

/-- Nothing but the fresh facts of the key is different afterwards. -/
structure OnlyFresh (s : DiffStore) (key : Nat) (s' : DiffStore) : Prop where
  propagated : ∀ k, s'.propagatedSet k = s.propagatedSet k
  others : ∀ k, k ≠ key → s'.freshSet k = s.freshSet k

/-- The facts of `S` are brought to the key. -/
structure Brings (s : DiffStore) (key : Nat) (S : Finset Nat) (r : Bool × DiffStore) : Prop extends
    s.OnlyFresh key r.2 where
  all : r.2.allSet key = s.allSet key ∪ S
  /-- The answer tells whether something was not known. -/
  answer : r.1 = true ↔ r.2.allSet key ≠ s.allSet key
  /-- What was not known is fresh. -/
  fresh : r.2.allSet key \ s.allSet key ⊆ r.2.freshSet key

/-- Every operation on the store does what it says, and every question is answered as it should. -/
structure Faithful (s : DiffStore) : Prop where
  add : ∀ key elem, s.Brings key {elem} (s.add key elem)
  addAll : ∀ dst (x : SetExpr), s.Brings dst x.members (s.addAll dst x.run)
  addKnown : ∀ dst src, s.Brings dst (s.allSet src) (s.addKnown dst src)
  addFresh : ∀ dst src, s.Brings dst (s.freshSet src) (s.addFresh dst src)
  /-- All facts of the key are propagated then, and no other key is touched. -/
  flush : ∀ key, (s.flush key).freshSet key = ∅ ∧
    (s.flush key).propagatedSet key = s.allSet key ∧
    ∀ k, k ≠ key → (s.flush key).freshSet k = s.freshSet k ∧
      (s.flush key).propagatedSet k = s.propagatedSet k
  all_flush : ∀ key k, (s.flush key).allSet k = s.allSet k
  reseed : ∀ key, s.OnlyFresh key (s.reseed key).2 ∧
    s.propagatedSet key ⊆ (s.reseed key).2.freshSet key ∧
    ((s.reseed key).1 = true ↔ (s.propagatedSet key).Nonempty)
  all_reseed : ∀ key k, (s.reseed key).2.allSet k = s.allSet k
  dropFresh : ∀ key elem, s.OnlyFresh key (s.dropFresh key elem).2 ∧
    (s.dropFresh key elem).2.freshSet key = (s.freshSet key).erase elem ∧
    ((s.dropFresh key elem).1 = true ↔ elem ∈ s.freshSet key)
  clearFresh : ∀ key, s.OnlyFresh key (s.clearFresh key) ∧ (s.clearFresh key).freshSet key = ∅
  /-- A fresh set that is handed out may be changed into any other. -/
  setFresh : ∀ key (x : SetExpr), s.OnlyFresh key (s.setFresh key x.run) ∧
    (s.setFresh key x.run).freshSet key = x.members
  hasFresh : ∀ key, s.hasFresh key = true ↔ (s.freshSet key).Nonempty
  toList_all : ∀ key, (s.all key).toList = (s.allSet key).sort
  toList_pendingFor : ∀ src dst,
    (s.pendingFor src dst).toList = (s.freshSet src \ s.propagatedSet dst).sort

theorem onlyFresh_setFresh (s : DiffStore) (key : Nat) (facts : ObjSet) :
    s.OnlyFresh key (s.setFresh key facts) where
  propagated _ := rfl
  others k hk := by
    unfold freshSet
    rw [freshOf_setFresh, if_neg hk.symm]

theorem freshSet_setFresh (s : DiffStore) (key : Nat) (facts : ObjSet) :
    (s.setFresh key facts).freshSet key = facts.toList.toFinset := by
  unfold freshSet
  rw [freshOf_setFresh, if_pos rfl]

theorem OnlyFresh.rfl : s.OnlyFresh key s :=
  ⟨fun _ => .refl _, fun _ _ => .refl _⟩

/-- An operation that gains facts, and says so only if one of them was not known. -/
theorem Gains.brings {S : Finset Nat} {r : Bool × DiffStore} (h : s.Gains key (· ∈ S) r)
    (hnew : r.1 = true → ∃ o ∈ r.2.all key, o ∉ s.all key) : s.Brings key S r where
  propagated k := propagatedSet_congr (h.propagated k)
  others k hk := by
    ext o
    rw [mem_freshSet, mem_freshSet]
    exact ⟨fun ho => (h.new k o ho).resolve_right fun hkey => hk hkey.1, h.kept k o⟩
  all := by
    ext o
    rw [Finset.mem_union, mem_allSet, mem_allSet]
    constructor
    · intro ho
      rcases mem_all.1 ho with ho | ho
      · exact Or.inl (mem_all.2 (Or.inl (h.propagated key ▸ ho)))
      · exact (h.new key o ho).imp (fun ho => mem_all.2 (Or.inr ho)) And.right
    · rintro (ho | ho)
      · rcases mem_all.1 ho with ho | ho
        · exact mem_all.2 (Or.inl (h.propagated key ▸ ho))
        · exact mem_all.2 (Or.inr (h.kept key o ho))
      · exact h.known o ho
  answer := by
    constructor
    · intro ha heq
      obtain ⟨o, ho, hno⟩ := hnew ha
      rw [← mem_allSet, heq, mem_allSet] at ho
      exact hno ho
    · intro hne
      by_contra ha
      refine hne ?_
      ext o
      rw [mem_allSet, mem_allSet, mem_all, mem_all, h.propagated key]
      refine or_congr_right ⟨h.quiet (Bool.eq_false_iff.2 ha) key o, h.kept key o⟩
  fresh := by
    intro o ho
    obtain ⟨ho, hno⟩ := Finset.mem_sdiff.1 ho
    rw [mem_allSet] at ho hno
    rw [mem_freshSet]
    refine (mem_all.1 ho).resolve_left fun hp => hno (mem_all.2 (Or.inl ?_))
    exact h.propagated key ▸ hp

theorem flush_sets (s : DiffStore) (key : Nat) : (s.flush key).freshSet key = ∅ ∧
    (s.flush key).propagatedSet key = s.allSet key ∧
    ∀ k, k ≠ key → (s.flush key).freshSet k = s.freshSet k ∧
      (s.flush key).propagatedSet k = s.propagatedSet k := by
  refine ⟨?_, ?_, fun k hk => ⟨?_, ?_⟩⟩
  · ext o
    simp [mem_freshOf_flush]
  · ext o
    simp [mem_propagatedOf_flush, allSet]
  · ext o
    simp [mem_freshOf_flush, hk.symm]
  · ext o
    simp [mem_propagatedOf_flush, hk.symm]

theorem reseed_sets (h : s.Alike s) (key : Nat) : s.OnlyFresh key (s.reseed key).2 ∧
    s.propagatedSet key ⊆ (s.reseed key).2.freshSet key ∧
    ((s.reseed key).1 = true ↔ (s.propagatedSet key).Nonempty) := by
  refine ⟨?_, fun o ho => ?_, ?_⟩
  · unfold DiffStore.reseed
    split
    · exact .rfl
    · exact s.onlyFresh_setFresh key _
  · rw [mem_freshSet]
    exact mem_freshOf_reseed (mem_propagatedSet.1 ho)
  · rw [Finset.nonempty_iff_ne_empty, ne_eq, ← (propagatedOf_represents h key).isEmpty_iff]
    unfold DiffStore.reseed
    split <;> simp_all

theorem allSet_reseed (s : DiffStore) (key k : Nat) :
    (s.reseed key).2.allSet k = s.allSet k := by
  have h := s.reseed_gains key
  ext o
  rw [mem_allSet, mem_allSet, mem_all, mem_all, h.propagated k]
  constructor
  · rintro (ho | ho)
    · exact Or.inl ho
    · rcases h.new k o ho with ho | ⟨rfl, ho⟩
      · exact Or.inr ho
      · exact Or.inl ho
  · exact Or.imp_right (h.kept k o)

/-- Dropping facts of a key without an entry changes nothing. -/
theorem freshSet_eq_empty (h : s.fresh? key = none) : s.freshSet key = ∅ := by
  unfold freshSet freshOf emptySet
  rw [h]
  simp

theorem dropFresh_sets (h : s.Alike s) (key elem : Nat) :
    s.OnlyFresh key (s.dropFresh key elem).2 ∧
      (s.dropFresh key elem).2.freshSet key = (s.freshSet key).erase elem ∧
      ((s.dropFresh key elem).1 = true ↔ elem ∈ s.freshSet key) := by
  have hrep := freshOf_represents h key
  unfold dropFresh
  cases hf : s.fresh? key with
  | none =>
    have hempty := freshSet_eq_empty hf
    exact ⟨.rfl, by rw [hempty, Finset.erase_empty], by simp [hempty]⟩
  | some facts =>
    rw [freshOf, hf] at hrep
    refine ⟨s.onlyFresh_setFresh key _, ?_, hrep.canonical.erase_fst_iff.trans (hrep.mem elem)⟩
    rw [replaceFresh_snd, freshSet_setFresh]
    ext o
    rw [List.mem_toFinset]
    exact (hrep.erase elem).mem o

theorem clearFresh_sets (s : DiffStore) (key : Nat) :
    s.OnlyFresh key (s.clearFresh key) ∧ (s.clearFresh key).freshSet key = ∅ := by
  unfold clearFresh
  cases hf : s.fresh? key with
  | none => exact ⟨.rfl, freshSet_eq_empty hf⟩
  | some facts =>
    refine ⟨s.onlyFresh_setFresh key _, ?_⟩
    rw [freshSet_setFresh]
    simp [ObjSet.clear]

theorem all_represents (h : s.Alike s) (key : Nat) : (s.all key).Represents (s.allSet key) := by
  have hall := ((ObjSet.Represents.empty s.backing).union (propagatedOf_represents h key)).union
    (freshOf_represents h key)
  rwa [Finset.empty_union] at hall

theorem pendingFor_represents (h : s.Alike s) (src dst : Nat) :
    (s.pendingFor src dst).Represents (s.freshSet src \ s.propagatedSet dst) := by
  have hrep := freshOf_represents h src
  unfold pendingFor
  cases hf : s.fresh? src with
  | none =>
    rw [freshSet_eq_empty hf, Finset.empty_sdiff]
    exact .empty s.backing
  | some facts =>
    rw [freshOf, hf, Option.getD_some] at hrep
    obtain ⟨hc, hmem⟩ := Alike.unpropagated_canonical hrep.canonical (propagated_canonical h dst)
    refine ⟨hc, fun o => ?_⟩
    rw [hmem, Finset.mem_sdiff, mem_propagatedSet]
    exact and_congr_left' (hrep.mem o)

theorem faithful (h : s.Alike s) : s.Faithful where
  add key elem := by
    have hgains := s.add_gains key elem
    simp only [← Finset.mem_singleton] at hgains
    exact hgains.brings (exists_new_of_add h)
  addAll dst x := by
    have hgains := s.addAll_gains dst x.run
    simp only [x.run_represents.mem] at hgains
    exact hgains.brings (exists_new_of_addAll h x.run_represents.canonical)
  addKnown dst src := by
    have hgains := s.addKnown_gains dst src
    simp only [← mem_allSet] at hgains
    exact hgains.brings (exists_new_of_addKnown h)
  addFresh dst src := by
    have hgains := s.addFresh_gains dst src
    simp only [← mem_freshSet] at hgains
    exact hgains.brings (exists_new_of_addFresh h)
  flush := s.flush_sets
  all_flush key k := by
    ext o
    rw [mem_allSet, mem_allSet, mem_all_flush]
  reseed := reseed_sets h
  all_reseed := s.allSet_reseed
  dropFresh := dropFresh_sets h
  clearFresh := s.clearFresh_sets
  setFresh key x := by
    refine ⟨s.onlyFresh_setFresh key _, ?_⟩
    rw [freshSet_setFresh]
    ext o
    rw [List.mem_toFinset]
    exact x.run_represents.mem o
  hasFresh key := by
    rw [DiffStore.hasFresh, Bool.not_eq_true', ← Bool.not_eq_true,
      (freshOf_represents h key).isEmpty_iff, Finset.nonempty_iff_ne_empty]
  toList_all key := (all_represents h key).toList
  toList_pendingFor src dst := (pendingFor_represents h src dst).toList

/-! ## Runs -/

/-- One operation on a store. -/
inductive Update where
  | add (key elem : Nat)
  | addAll (dst : Nat) (facts : SetExpr)
  | addKnown (dst src : Nat)
  | addFresh (dst src : Nat)
  | flush (key : Nat)
  | reseed (key : Nat)
  | dropFresh (key elem : Nat)
  | clearFresh (key : Nat)
  /-- The fresh set is handed out, and these facts are what is made of it. -/
  | setFresh (key : Nat) (facts : SetExpr)

/-- The store after an operation. -/
def update (s : DiffStore) : Update → DiffStore
  | .add key elem => (s.add key elem).2
  | .addAll dst facts => (s.addAll dst facts.run).2
  | .addKnown dst src => (s.addKnown dst src).2
  | .addFresh dst src => (s.addFresh dst src).2
  | .flush key => s.flush key
  | .reseed key => (s.reseed key).2
  | .dropFresh key elem => (s.dropFresh key elem).2
  | .clearFresh key => s.clearFresh key
  | .setFresh key facts => s.setFresh key facts.run

/-- The facts that an operation brings from outside of the store. -/
def Update.brought : Update → Finset Nat
  | .add _ elem => {elem}
  | .addAll _ facts | .setFresh _ facts => facts.members
  | _ => ∅

/-- The store after a sequence of operations. -/
def updates (s : DiffStore) (us : List Update) : DiffStore :=
  us.foldl update s

theorem alike_update (h : s.Alike s) (u : Update) : (s.update u).Alike (s.update u) := by
  cases u with
  | add key elem => exact (h.add key elem).store
  | addAll dst facts => exact alike_addAll h facts.run_represents.canonical dst
  | addKnown dst src => exact (h.addKnown dst src).store
  | addFresh dst src => exact alike_addFresh h dst src
  | flush key => exact h.flush key
  | reseed key => exact (h.reseed key).store
  | dropFresh key elem => exact alike_dropFresh h key elem
  | clearFresh key => exact alike_clearFresh h key
  | setFresh key facts => exact alike_setFresh h facts.run_represents.canonical key

theorem alike_updates (h : s.Alike s) (us : List Update) : (s.updates us).Alike (s.updates us) := by
  induction us generalizing s with
  | nil => exact h
  | cons u us ih => exact ih (alike_update h u)

theorem alike_ofPrototype (prototype : ObjSet) :
    (ofPrototype prototype).Alike (ofPrototype prototype) :=
  alike_new _ _

/-- Propagated facts stay propagated. -/
theorem propagatedSet_update (h : s.Faithful) (u : Update) (key : Nat) :
    s.propagatedSet key ⊆ (s.update u).propagatedSet key := by
  cases u with
  | add k elem => exact ((h.add k elem).propagated key).ge
  | addAll dst facts => exact ((h.addAll dst facts).propagated key).ge
  | addKnown dst src => exact ((h.addKnown dst src).propagated key).ge
  | addFresh dst src => exact ((h.addFresh dst src).propagated key).ge
  | flush k =>
    by_cases hk : key = k
    · subst hk
      exact Finset.subset_union_left.trans (h.flush key).2.1.ge
    · exact ((h.flush k).2.2 key hk).2.ge
  | reseed k => exact ((h.reseed k).1.propagated key).ge
  | dropFresh k elem => exact ((h.dropFresh k elem).1.propagated key).ge
  | clearFresh k => exact ((h.clearFresh k).1.propagated key).ge
  | setFresh k facts => exact ((h.setFresh k facts).1.propagated key).ge

theorem propagatedSet_updates (h : s.Alike s) (us : List Update) (key : Nat) :
    s.propagatedSet key ⊆ (s.updates us).propagatedSet key := by
  induction us generalizing s with
  | nil => exact Finset.Subset.refl _
  | cons u us ih => exact (propagatedSet_update (faithful h) u key).trans (ih (alike_update h u))

/-- A fact in the store, for whatever key, was there before or is brought by the operation. -/
theorem mem_allSet_update (h : s.Faithful) {u : Update} (ho : o ∈ (s.update u).allSet key) :
    (∃ k, o ∈ s.allSet k) ∨ o ∈ u.brought := by
  have unchanged : ∀ {s' : DiffStore} {k : Nat}, s.OnlyFresh k s' → o ∈ s'.allSet key →
      (∃ k, o ∈ s.allSet k) ∨ key = k ∧ o ∈ s'.freshSet key := by
    intro s' k hs ho
    rcases Finset.mem_union.1 ho with ho | ho
    · exact Or.inl ⟨key, Finset.mem_union_left _ (hs.propagated key ▸ ho)⟩
    · by_cases hk : key = k
      · exact Or.inr ⟨hk, ho⟩
      · exact Or.inl ⟨key, Finset.mem_union_right _ (hs.others key hk ▸ ho)⟩
  have brought : ∀ {S : Finset Nat} {r : Bool × DiffStore} {k : Nat}, s.Brings k S r →
      o ∈ r.2.allSet key → (∃ k, o ∈ s.allSet k) ∨ o ∈ S := by
    intro S r k hr ho
    rcases unchanged hr.toOnlyFresh ho with h | ⟨rfl, -⟩
    · exact Or.inl h
    · exact (Finset.mem_union.1 (hr.all ▸ ho)).imp (fun ho => ⟨key, ho⟩) id
  cases u with
  | add k elem => exact brought (h.add k elem) ho
  | addAll dst facts => exact brought (h.addAll dst facts) ho
  | addKnown dst src =>
    exact Or.inl ((brought (h.addKnown dst src) ho).elim id fun ho => ⟨src, ho⟩)
  | addFresh dst src =>
    exact Or.inl ((brought (h.addFresh dst src) ho).elim id fun ho =>
      ⟨src, Finset.mem_union_right _ ho⟩)
  | flush k => exact Or.inl ⟨key, h.all_flush k key ▸ ho⟩
  | reseed k => exact Or.inl ⟨key, h.all_reseed k key ▸ ho⟩
  | dropFresh k elem =>
    rcases unchanged (h.dropFresh k elem).1 ho with h' | ⟨rfl, ho⟩
    · exact Or.inl h'
    · rw [(h.dropFresh key elem).2.1] at ho
      exact Or.inl ⟨key, Finset.mem_union_right _ (Finset.mem_of_mem_erase ho)⟩
  | clearFresh k =>
    rcases unchanged (h.clearFresh k).1 ho with h' | ⟨rfl, ho⟩
    · exact Or.inl h'
    · rw [(h.clearFresh key).2] at ho
      simp at ho
  | setFresh k facts =>
    rcases unchanged (h.setFresh k facts).1 ho with h' | ⟨rfl, ho⟩
    · exact Or.inl h'
    · rw [(h.setFresh key facts).2] at ho
      exact Or.inr ho

theorem allSet_ofPrototype (prototype : ObjSet) (key : Nat) :
    (ofPrototype prototype).allSet key = ∅ := by
  ext o
  rw [mem_allSet, mem_all]
  simp [ofPrototype]

/-- Whatever a store made from a prototype knows, some operation has brought. -/
theorem mem_allSet_updates (prototype : ObjSet) (us : List Update)
    (ho : o ∈ ((ofPrototype prototype).updates us).allSet key) : ∃ u ∈ us, o ∈ u.brought := by
  induction us using List.reverseRecOn generalizing key with
  | nil =>
    rw [updates, List.foldl_nil, allSet_ofPrototype] at ho
    simp at ho
  | append_singleton us u ih =>
    rw [updates, List.foldl_append, List.foldl_cons, List.foldl_nil] at ho
    have hstore := alike_updates (alike_ofPrototype prototype) us
    rcases mem_allSet_update (faithful hstore) ho with ⟨k, ho⟩ | ho
    · obtain ⟨u', hu', ho⟩ := ih ho
      exact ⟨u', List.mem_append_left _ hu', ho⟩
    · exact ⟨u, by simp, ho⟩

/-- **The store keeps two finite sets for every key, and each operation does to them what it
says.** After any operations on a store made from any prototype, a further operation has its
effect on the one key and no other (`Faithful`); propagated facts are never lost, whatever
comes later; and a fact that is known for some key was brought by an operation, so none comes
from the prototype. -/
theorem updates_faithful (prototype : ObjSet) (us : List Update) :
    ((ofPrototype prototype).updates us).Faithful ∧
      (∀ more key, ((ofPrototype prototype).updates us).propagatedSet key ⊆
        ((ofPrototype prototype).updates (us ++ more)).propagatedSet key) ∧
      ∀ key, ∀ o ∈ ((ofPrototype prototype).updates us).allSet key, ∃ u ∈ us, o ∈ u.brought := by
  have hstore := alike_updates (alike_ofPrototype prototype) us
  refine ⟨faithful hstore, fun more key => ?_, fun key o ho => mem_allSet_updates prototype us ho⟩
  have hmore := propagatedSet_updates hstore more key
  rwa [updates, updates, ← List.foldl_append] at hmore

/-- After a reseed a fact is fresh and propagated at once. It is no news, and the one fact of the
prototype is unknown. -/
example : let s := (ofPrototype (.hash [7])).updates [.add 1 5, .flush 1, .reseed 1]
    (s.add 1 5).1 = false ∧ (s.add 1 7).1 = true := by
  decide

end PointsTo.DiffStore
