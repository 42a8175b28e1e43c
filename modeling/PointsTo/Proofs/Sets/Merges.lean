import Mathlib.Data.List.Nodup
import Mathlib.Data.List.TakeWhile
import PointsTo.Proofs.Sets.Words

/-!
# Canonical bit vectors

Every bit vector that the operations make is canonical: blocks ascend, and no word is zero. On such
vectors the merges, which skip and end early, make of the rows what their names say: a union the
bits of both sides, a difference those of the left side alone, an intersection those on both, and
the comparisons ask all rows, or for one. A block has one row then, whose bits are the members, so
what holds of the bits of each row holds of the members (`Canonical.forall_rows`).
-/

namespace PointsTo.BitWords

/-- Blocks ascend, and no word is zero. -/
structure Canonical (ws : BitWords) : Prop where
  ascending : ws.Pairwise fun p q => p.1 < q.1
  nonzero : ∀ p ∈ ws, p.2 ≠ 0

theorem canonical_nil : Canonical [] :=
  ⟨.nil, by simp⟩

variable {ws xs ys : BitWords} {b e : Nat}

/-! ## Listing -/

theorem Canonical.wordAt (h : ws.Canonical) {p : Nat × Word} (hp : p ∈ ws) :
    ws.wordAt p.1 = p.2 := by
  obtain ⟨l₁, l₂, rfl⟩ := List.append_of_mem hp
  have hbefore : (l₁ ++ p :: l₂).lookup p.1 = some p.2 := by
    refine List.lookup_eq_some_iff.2 ⟨l₁, l₂, rfl, fun q hq => ?_⟩
    have hlt := (List.pairwise_append.1 h.ascending).2.2 q hq p (by simp)
    simp only [bne_iff_ne, ne_eq]
    omega
  simp [BitWords.wordAt, hbefore]

/-- What is listed is found. -/
theorem Canonical.contains_iff (h : ws.Canonical) : ws.contains e = true ↔ e ∈ ws.toList := by
  refine ⟨mem_toList_of_contains, fun he => ?_⟩
  obtain ⟨p, hp, hb, hi⟩ := mem_toList.1 he
  rw [contains_eq, ← hb, h.wordAt hp]
  exact hi

theorem exists_bit {w : Word} (h : w ≠ 0) : ∃ i < 64, w.getLsbD i = true := by
  refine Classical.byContradiction fun hno => h (BitVec.eq_of_getLsbD_eq fun i hi => ?_)
  rw [Bool.eq_false_iff.2 fun hbit => hno ⟨i, hi, hbit⟩]
  simp

/-- A word that is not zero has a member. -/
theorem exists_mem_of_nonzero {p : Nat × Word} (hp : p ∈ ws) (h : p.2 ≠ 0) :
    ∃ e ∈ ws.toList, p.1 = e / 64 ∧ p.2.getLsbD (e % 64) = true := by
  obtain ⟨i, hlt, hi⟩ := exists_bit h
  have hdiv : (64 * p.1 + i) / 64 = p.1 := by omega
  have hmod : (64 * p.1 + i) % 64 = i := by omega
  have hbit : p.1 = (64 * p.1 + i) / 64 ∧ p.2.getLsbD ((64 * p.1 + i) % 64) = true := by
    rw [hdiv, hmod]
    exact ⟨rfl, hi⟩
  exact ⟨64 * p.1 + i, mem_toList.2 ⟨p, hp, hbit⟩, hbit⟩

theorem pairwise_positions (w : Word) : (positions w).Pairwise (· < ·) :=
  List.Pairwise.filter _ List.pairwise_lt_range

theorem Canonical.toList (h : ws.Canonical) : ws.toList.Pairwise (· < ·) := by
  refine List.pairwise_flatMap.2 ⟨fun p _ => ?_, h.ascending.imp ?_⟩
  · exact List.pairwise_map.2 ((pairwise_positions p.2).imp fun hlt => by omega)
  · intro p q hpq x hx y hy
    simp only [List.mem_map, mem_positions] at hx hy
    obtain ⟨i, hi, rfl⟩ := hx
    obtain ⟨j, -, rfl⟩ := hy
    have hlt : i < 64 := BitVec.lt_of_getLsbD hi
    omega

/-! ## Single members -/

theorem Canonical.of_cons {p : Nat × Word} (h : Canonical (p :: ws)) :
    p.2 ≠ 0 ∧ (∀ q ∈ ws, p.1 < q.1) ∧ ws.Canonical := by
  obtain ⟨hlt, hasc⟩ := List.pairwise_cons.1 h.ascending
  exact ⟨h.nonzero p (by simp), hlt, hasc, fun q hq => h.nonzero q (by simp [hq])⟩

theorem or_ne_zero {v w : Word} (h : v ≠ 0) : v ||| w ≠ 0 := by
  obtain ⟨i, hlt, hi⟩ := exists_bit h
  intro hz
  have hbit : (v ||| w).getLsbD i = true := by simp [hi]
  rw [hz] at hbit
  simp at hbit

/-- After skipping, the first word is of the block or of a later one. -/
theorem le_of_skipTo {p : Nat × Word} {rest : BitWords} (h : ws.skipTo b = p :: rest) :
    b ≤ p.1 := by
  have hhead := List.head?_dropWhile_not (fun q : Nat × Word => decide (q.1 < b)) ws
  unfold skipTo at h
  rw [h] at hhead
  simpa using hhead

/-- So are the others, if blocks ascend. -/
theorem le_of_mem_skipTo (h : ws.Pairwise fun p q => p.1 < q.1) {p : Nat × Word}
    (hp : p ∈ ws.skipTo b) : b ≤ p.1 := by
  cases hskip : ws.skipTo b with
  | nil => simp [hskip] at hp
  | cons q rest =>
    have hq := le_of_skipTo hskip
    have hrest : (ws.skipTo b).Pairwise fun p q => p.1 < q.1 :=
      h.sublist (List.dropWhile_suffix _).sublist
    rw [hskip] at hp hrest
    rcases List.mem_cons.1 hp with rfl | hp
    · exact hq
    · exact hq.trans ((List.pairwise_cons.1 hrest).1 p hp).le

/-- The place of a block that is absent lies between the lower blocks and the higher ones. -/
theorem Canonical.place (h : ws.Canonical) {m : Word} (hm : m ≠ 0) (hb : ∀ p ∈ ws, p.1 ≠ b) :
    (ws.place b m).Canonical := by
  have hsplit : (ws.takeWhile fun p => p.1 < b) ++ ws.skipTo b = ws :=
    List.takeWhile_append_dropWhile
  have hasc := h.ascending
  rw [← hsplit, List.pairwise_append] at hasc
  have below : ∀ p ∈ ws.takeWhile fun p => p.1 < b, p.1 < b := fun p hp => by
    simpa using List.mem_takeWhile_imp hp
  have above : ∀ p ∈ ws.skipTo b, b < p.1 := fun p hp =>
    Nat.lt_of_le_of_ne (le_of_mem_skipTo h.ascending hp)
      (hb p ((List.dropWhile_suffix _).subset hp)).symm
  refine ⟨List.pairwise_append.2 ⟨hasc.1, List.pairwise_cons.2 ⟨above, hasc.2.1⟩, ?_⟩, ?_⟩
  · intro p hp q hq
    rcases List.mem_cons.1 hq with rfl | hq
    · exact below p hp
    · exact hasc.2.2 p hp q hq
  · intro p hp
    rcases List.mem_append.1 hp with hp | hp
    · exact h.nonzero p ((List.takeWhile_prefix _).subset hp)
    · rcases List.mem_cons.1 hp with rfl | hp
      · exact hm
      · exact h.nonzero p ((List.dropWhile_suffix _).subset hp)

theorem Canonical.mapWords (h : ws.Canonical) (f : Nat → Word → Word) :
    (ws.mapWords f).Canonical := by
  unfold BitWords.mapWords
  refine ⟨List.pairwise_filterMap.2 (h.ascending.imp ?_), fun q hq => ?_⟩
  · intro p q hpq p' hp' q' hq'
    split at hp' <;> split at hq' <;> grind
  · obtain ⟨p, -, hp⟩ := List.mem_filterMap.1 hq
    split at hp
    · cases hp
    · cases hp
      assumption

theorem Canonical.modifyWord (h : ws.Canonical) (b : Nat) (f : Word → Word) :
    (ws.modifyWord b f).Canonical :=
  h.mapWords _

theorem Canonical.insert (h : ws.Canonical) (e : Nat) : (ws.insert e).2.Canonical := by
  unfold BitWords.insert
  cases hl : ws.lookup (e / 64) with
  | none =>
    refine h.place (mask_ne_zero e) fun p hp hb => ?_
    simpa [hb] using List.lookup_eq_none_iff.1 hl p hp
  | some w => exact h.modifyWord (e / 64) (· ||| mask e)

theorem Canonical.erase (h : ws.Canonical) (e : Nat) : (ws.erase e).2.Canonical := by
  unfold BitWords.erase
  cases ws.lookup (e / 64) with
  | none => exact h
  | some w => exact h.modifyWord (e / 64) (· &&& ~~~ mask e)

/-! ## Rows -/

/-- Where a row of one walk comes from: the word that the walk is for, a word that it passes, or
what comes behind. -/
theorem mem_alignWord {b : Nat} {v : Word} {rest : BitWords → List Row} {r : Row}
    (h : r ∈ alignWord b v rest ys) :
    (r.block = b ∧ r.left = v) ∨ (∃ p ∈ ys, r.block = p.1 ∧ r.right = p.2) ∨
      ∃ l, l <:+ ys ∧ r ∈ rest l := by
  induction ys with
  | nil =>
    rcases List.mem_cons.1 h with rfl | h
    · exact Or.inl ⟨rfl, rfl⟩
    · exact Or.inr (Or.inr ⟨[], List.suffix_rfl, h⟩)
  | cons p ys ih =>
    obtain ⟨c, w⟩ := p
    unfold alignWord at h
    split at h
    · rcases List.mem_cons.1 h with rfl | h
      · exact Or.inl ⟨rfl, rfl⟩
      · exact Or.inr (Or.inr ⟨_, List.suffix_rfl, h⟩)
    · split at h
      · rcases List.mem_cons.1 h with rfl | h
        · exact Or.inr (Or.inl ⟨(c, w), by simp, rfl, rfl⟩)
        · rcases ih h with h | ⟨p, hp, h⟩ | ⟨l, hl, h⟩
          · exact Or.inl h
          · exact Or.inr (Or.inl ⟨p, by simp [hp], h⟩)
          · exact Or.inr (Or.inr ⟨l, hl.trans (List.suffix_cons _ _), h⟩)
      · rcases List.mem_cons.1 h with rfl | h
        · exact Or.inl ⟨rfl, rfl⟩
        · exact Or.inr (Or.inr ⟨ys, List.suffix_cons _ _, h⟩)

/-- Every row has a word of one of the vectors. -/
theorem mem_align {r : Row} (h : r ∈ xs.align ys) :
    (∃ p ∈ xs, r.block = p.1 ∧ r.left = p.2) ∨ ∃ p ∈ ys, r.block = p.1 ∧ r.right = p.2 := by
  induction xs generalizing ys with
  | nil =>
    obtain ⟨p, hp, rfl⟩ := List.mem_map.1 h
    exact Or.inr ⟨p, hp, rfl, rfl⟩
  | cons q xs ih =>
    rcases mem_alignWord h with h | h | ⟨l, hl, h⟩
    · exact Or.inl ⟨q, by simp, h⟩
    · exact Or.inr h
    · rcases ih h with ⟨p, hp, h⟩ | ⟨p, hp, h⟩
      · exact Or.inl ⟨p, by simp [hp], h⟩
      · exact Or.inr ⟨p, hl.subset hp, h⟩

theorem pairwise_alignWord {b : Nat} {v : Word} {rest : BitWords → List Row}
    (habove : ∀ l, ∀ r ∈ rest l, b < r.block ∨ ∃ p ∈ l, r.block = p.1)
    (hrest : ∀ l : BitWords, l.Pairwise (fun p q => p.1 < q.1) →
      (rest l).Pairwise fun r q => r.block < q.block)
    (hys : ys.Pairwise fun p q => p.1 < q.1) :
    (alignWord b v rest ys).Pairwise fun r q => r.block < q.block := by
  induction ys with
  | nil =>
    refine List.pairwise_cons.2 ⟨fun r hr => ?_, hrest [] .nil⟩
    rcases habove [] r hr with h | ⟨p, hp, -⟩
    · exact h
    · simp at hp
  | cons p ys ih =>
    obtain ⟨c, w⟩ := p
    obtain ⟨hlt, htail⟩ := List.pairwise_cons.1 hys
    unfold alignWord
    split
    · rename_i hbc
      refine List.pairwise_cons.2 ⟨fun r hr => ?_, hrest _ hys⟩
      rcases habove _ r hr with h | ⟨p, hp, h⟩
      · exact h
      · rcases List.mem_cons.1 hp with rfl | hp
        · show b < r.block
          rw [h]
          exact hbc
        · have := hlt p hp
          show b < r.block
          omega
    · split
      · rename_i hcb
        refine List.pairwise_cons.2 ⟨fun r hr => ?_, ih htail⟩
        show c < r.block
        rcases mem_alignWord hr with ⟨h, -⟩ | ⟨p, hp, h, -⟩ | ⟨l, hl, h⟩
        · omega
        · have := hlt p hp
          omega
        · rcases habove l r h with h | ⟨p, hp, h⟩
          · omega
          · have := hlt p (hl.subset hp)
            omega
      · refine List.pairwise_cons.2 ⟨fun r hr => ?_, hrest _ htail⟩
        show b < r.block
        rcases habove _ r hr with h | ⟨p, hp, h⟩
        · exact h
        · have := hlt p hp
          omega

theorem pairwise_align (hx : xs.Pairwise fun p q => p.1 < q.1)
    (hy : ys.Pairwise fun p q => p.1 < q.1) :
    (xs.align ys).Pairwise fun r q => r.block < q.block := by
  induction xs generalizing ys with
  | nil => exact List.pairwise_map.2 hy
  | cons p xs ih =>
    obtain ⟨hlt, hxs⟩ := List.pairwise_cons.1 hx
    refine pairwise_alignWord (fun l r hr => ?_) (fun _ hl => ih hxs hl) hy
    rcases mem_align hr with ⟨q, hq, h, -⟩ | ⟨q, hq, h, -⟩
    · rw [h]
      exact Or.inl (hlt q hq)
    · exact Or.inr ⟨q, hq, h⟩

/-- Rows ascend. -/
theorem Canonical.align (hx : xs.Canonical) (hy : ys.Canonical) :
    (xs.align ys).Pairwise fun r q => r.block < q.block :=
  pairwise_align hx.ascending hy.ascending

/-- A block has one row. -/
theorem Canonical.row_unique (hx : xs.Canonical) (hy : ys.Canonical) {r q : Row}
    (hr : r ∈ xs.align ys) (hq : q ∈ xs.align ys) (h : r.block = q.block) : r = q := by
  have hnodup : ((xs.align ys).map Row.block).Nodup :=
    List.pairwise_map.2 ((hx.align hy).imp Nat.ne_of_lt)
  exact List.inj_on_of_nodup_map hnodup hr hq h

/-- The row of a block that is in the first vector has a bit on the left for each member. -/
theorem Canonical.hasLeft_iff (hx : xs.Canonical) (hy : ys.Canonical) {r : Row}
    (hr : r ∈ xs.align ys) (hb : r.block = e / 64) :
    r.left.getLsbD (e % 64) = true ↔ e ∈ xs.toList := by
  refine ⟨fun h => (exists_hasLeft_align ys).1 ⟨r, hr, hb, h⟩, fun h => ?_⟩
  obtain ⟨q, hq, hqb, hl⟩ := (exists_hasLeft_align ys).2 h
  rw [hx.row_unique hy hr hq (hb.trans hqb.symm)]
  exact hl

theorem Canonical.hasRight_iff (hx : xs.Canonical) (hy : ys.Canonical) {r : Row}
    (hr : r ∈ xs.align ys) (hb : r.block = e / 64) :
    r.right.getLsbD (e % 64) = true ↔ e ∈ ys.toList := by
  refine ⟨fun h => (exists_hasRight_align xs).1 ⟨r, hr, hb, h⟩, fun h => ?_⟩
  obtain ⟨q, hq, hqb, hw⟩ := (exists_hasRight_align xs).2 h
  rw [hx.row_unique hy hr hq (hb.trans hqb.symm)]
  exact hw

/-- What holds of the bits of each row holds of the members, and conversely. -/
theorem Canonical.forall_rows (hx : xs.Canonical) (hy : ys.Canonical) {P : Bool → Bool → Prop}
    (hzero : P false false) :
    (∀ r ∈ xs.align ys, ∀ i < 64, P (r.left.getLsbD i) (r.right.getLsbD i)) ↔
      ∀ e, P (decide (e ∈ xs.toList)) (decide (e ∈ ys.toList)) := by
  constructor
  · intro h e
    by_cases hrow : ∃ r ∈ xs.align ys, r.block = e / 64
    · obtain ⟨r, hr, hb⟩ := hrow
      have hP := h r hr (e % 64) (Nat.mod_lt _ (by decide))
      rwa [Bool.eq_iff_iff.2 ((hx.hasLeft_iff hy hr hb).trans decide_eq_true_iff.symm),
        Bool.eq_iff_iff.2 ((hx.hasRight_iff hy hr hb).trans decide_eq_true_iff.symm)] at hP
    · have hl : e ∉ xs.toList := by
        intro hmem
        obtain ⟨r, hr, hb, -⟩ := (exists_hasLeft_align ys).2 hmem
        exact hrow ⟨r, hr, hb⟩
      have hw : e ∉ ys.toList := by
        intro hmem
        obtain ⟨r, hr, hb, -⟩ := (exists_hasRight_align xs).2 hmem
        exact hrow ⟨r, hr, hb⟩
      simpa [hl, hw] using hzero
  · intro h r hr i hi
    have hdiv : r.block = (64 * r.block + i) / 64 := by omega
    have hmod : (64 * r.block + i) % 64 = i := by omega
    have hP := h (64 * r.block + i)
    rw [← Bool.eq_iff_iff.2 ((hx.hasLeft_iff hy hr hdiv).trans decide_eq_true_iff.symm),
      ← Bool.eq_iff_iff.2 ((hx.hasRight_iff hy hr hdiv).trans decide_eq_true_iff.symm), hmod] at hP
    exact hP

/-! ## Union -/

/-- A merge whose rows are full brings no news: a block that only the second vector has would make
a row that is not, as its word is not zero. -/
theorem merge_of_isFull {changed : Bool} (hy : ∀ p ∈ ys, p.2 ≠ 0)
    (h : ∀ r ∈ xs.align ys, r.IsFull) (hchanged : changed = false) :
    (merge changed xs ys).1 = false := by
  have notFull : ∀ {c : Nat} {w : Word} {zs : BitWords}, (∀ p ∈ (c, w) :: zs, p.2 ≠ 0) →
      ¬ Row.IsFull ⟨c, 0, w⟩ := by
    intro c w zs hne hfull
    exact hne (c, w) (by simp) (BitVec.zero_or.symm.trans hfull)
  induction changed, xs, ys using merge.induct with
  | case1 changed xs => rw [merge, hchanged]
  | case2 changed ys hys =>
    cases ys with
    | nil => exact absurd rfl hys
    | cons p ys => exact absurd (h ⟨p.1, 0, p.2⟩ (by simp [align_nil_left])) (notFull hy)
  | case3 changed b v xs c w ys hbc ih =>
    rw [align_cons_cons, if_pos hbc, List.forall_mem_cons] at h
    rw [merge, if_pos hbc]
    exact ih hy h.2 hchanged
  | case4 changed b v xs c w ys hbc hcb ih =>
    rw [align_cons_cons, if_neg hbc, if_pos hcb, List.forall_mem_cons] at h
    exact absurd h.1 (notFull hy)
  | case5 changed b v xs c w ys hbc hcb ih =>
    rw [align_cons_cons, if_neg hbc, if_neg hcb, List.forall_mem_cons] at h
    rw [merge, if_neg hbc, if_neg hcb]
    refine ih (fun p hp => hy p (by simp [hp])) h.2 ?_
    rw [hchanged, Bool.false_or, bne_eq_false_iff_eq]
    exact h.1

/-- A union brings no news just when every row is full. -/
theorem union_fst_eq_false (hy : ∀ p ∈ ys, p.2 ≠ 0) :
    (xs.union ys).1 = false ↔ ∀ r ∈ xs.align ys, r.IsFull := by
  refine ⟨isFull_of_union, fun h => ?_⟩
  have hmerge := merge_of_isFull hy h rfl
  unfold union
  split
  · rfl
  · rename_i hne
    rw [merge.eq_2 _ _ hne] at hmerge
    exact hmerge
  · exact hmerge

theorem Canonical.union (hx : xs.Canonical) (hy : ys.Canonical) : (xs.union ys).2.Canonical := by
  rw [union_snd]
  refine ⟨List.pairwise_map.2 (hx.align hy), fun p hp => ?_⟩
  obtain ⟨r, hr, rfl⟩ := List.mem_map.1 hp
  rcases mem_align hr with ⟨q, hq, -, h⟩ | ⟨q, hq, -, h⟩
  · show r.left ||| r.right ≠ 0
    rw [h]
    exact or_ne_zero (hx.nonzero q hq)
  · show r.left ||| r.right ≠ 0
    rw [h, BitVec.or_comm]
    exact or_ne_zero (hy.nonzero q hq)

/-- Every row is full just when the first vector has all members of the second. -/
theorem Canonical.forall_isFull_iff (hx : xs.Canonical) (hy : ys.Canonical) :
    (∀ r ∈ xs.align ys, r.IsFull) ↔ ∀ e ∈ ys.toList, e ∈ xs.toList := by
  have hrows := hx.forall_rows hy (P := fun l w => w = true → l = true) (by simp)
  simp only [decide_eq_true_iff] at hrows
  rw [← hrows]
  refine forall₂_congr fun r _ => ?_
  rw [Row.IsFull, BitVec.eq_of_getLsbD_eq_iff]
  refine forall₂_congr fun i _ => ?_
  rw [BitVec.getLsbD_or]
  cases r.left.getLsbD i <;> cases r.right.getLsbD i <;> simp

theorem Canonical.union_fst_eq_false (hx : xs.Canonical) (hy : ys.Canonical) :
    (xs.union ys).1 = false ↔ ∀ e ∈ ys.toList, e ∈ xs.toList :=
  (BitWords.union_fst_eq_false hy.nonzero).trans (hx.forall_isFull_iff hy)

/-! ## Rows that are kept -/

/-- Combines the words of each row, and drops those that become zero. -/
def keepRows (f : Word → Word → Word) (rs : List Row) : BitWords :=
  rs.filterMap fun r => if f r.left r.right = 0 then none else some (r.block, f r.left r.right)

variable {f : Word → Word → Word} {r : Row} {rs : List Row}

theorem keepRows_cons : keepRows f (r :: rs) =
    if f r.left r.right = 0 then keepRows f rs
    else (r.block, f r.left r.right) :: keepRows f rs := by
  unfold keepRows
  rw [List.filterMap_cons]
  split <;> simp_all

theorem keepRows_cons_of_zero (h : f r.left r.right = 0) :
    keepRows f (r :: rs) = keepRows f rs := by
  rw [keepRows_cons, if_pos h]

theorem keepRows_eq_nil (h : ∀ r ∈ rs, f r.left r.right = 0) : keepRows f rs = [] := by
  unfold keepRows
  rw [List.filterMap_eq_nil_iff]
  intro r hr
  rw [if_pos (h r hr)]

theorem mem_toList_keepRows : e ∈ toList (keepRows f rs) ↔
    ∃ r ∈ rs, r.block = e / 64 ∧ (f r.left r.right).getLsbD (e % 64) = true := by
  simp only [mem_toList, keepRows, List.mem_filterMap]
  constructor
  · rintro ⟨q, ⟨r, hr, hq⟩, hb, hi⟩
    split at hq
    · cases hq
    · cases hq
      exact ⟨r, hr, hb, hi⟩
  · rintro ⟨r, hr, hb, hi⟩
    refine ⟨(r.block, f r.left r.right), ⟨r, hr, ?_⟩, hb, hi⟩
    rw [if_neg]
    intro hz
    rw [hz] at hi
    simp at hi

theorem Canonical.keepRows (hx : xs.Canonical) (hy : ys.Canonical) (f : Word → Word → Word) :
    (BitWords.keepRows f (xs.align ys)).Canonical := by
  unfold BitWords.keepRows
  refine ⟨List.pairwise_filterMap.2 ((hx.align hy).imp ?_), fun q hq => ?_⟩
  · intro r q hrq p hp p' hp'
    split at hp <;> split at hp' <;> grind
  · obtain ⟨r, -, hr⟩ := List.mem_filterMap.1 hq
    split at hr
    · cases hr
    · cases hr
      assumption

/-! ## Difference -/

/-- A word that only the second vector has leaves nothing. -/
theorem keepRows_align_cons (hf : ∀ w, f 0 w = 0) {c : Nat} {w : Word}
    (h : ∀ p ∈ xs, c < p.1) :
    keepRows f (xs.align ((c, w) :: ys)) = keepRows f (xs.align ys) := by
  cases xs with
  | nil => exact keepRows_cons_of_zero (hf w)
  | cons p xs =>
    obtain ⟨b, v⟩ := p
    have hcb : c < b := h (b, v) (by simp)
    rw [align_cons_cons, if_neg hcb.not_gt, if_pos hcb]
    exact keepRows_cons_of_zero (hf w)

theorem keepRows_align_skipTo (hf : ∀ w, f 0 w = 0) (h : ∀ p ∈ xs, b ≤ p.1) :
    keepRows f (xs.align (ys.skipTo b)) = keepRows f (xs.align ys) := by
  induction ys with
  | nil => rfl
  | cons p ys ih =>
    by_cases hlt : p.1 < b
    · rw [skipTo_cons_of_lt hlt, ih]
      exact (keepRows_align_cons hf fun q hq => hlt.trans_le (h q hq)).symm
    · rw [skipTo_cons_of_le (Nat.le_of_not_lt hlt)]

/-- Clearing keeps of each row the bits that are on the left side alone. -/
theorem clearBits_eq (hx : xs.Pairwise fun p q => p.1 < q.1) (ys : BitWords) :
    clearBits xs ys = keepRows (fun v w => v &&& ~~~ w) (xs.align ys) := by
  have hf : ∀ w : Word, (0 : Word) &&& ~~~ w = 0 := fun _ => BitVec.zero_and
  have hzero : ∀ v : Word, v &&& ~~~ (0 : Word) = v := fun v => by
    rw [show ~~~ (0 : Word) = BitVec.allOnes 64 from BitVec.not_zero, BitVec.and_allOnes]
  induction xs generalizing ys with
  | nil =>
    refine (keepRows_eq_nil fun r hr => ?_).symm
    obtain ⟨p, -, rfl⟩ := List.mem_map.1 hr
    exact hf p.2
  | cons p xs ih =>
    obtain ⟨b, v⟩ := p
    obtain ⟨hlt, hxs⟩ := List.pairwise_cons.1 hx
    have hle : ∀ p ∈ (b, v) :: xs, b ≤ p.1 :=
      List.forall_mem_cons.2 ⟨le_rfl, fun p hp => (hlt p hp).le⟩
    rw [← keepRows_align_skipTo hf hle, clearBits, ih hxs]
    -- What stands first behind the words skipped over decides which bits are cleared.
    cases hskip : ys.skipTo b with
    | nil => rw [align_cons_nil, keepRows_cons, hzero, clearBy]
    | cons q rest =>
      obtain ⟨c, w⟩ := q
      have hbc : b ≤ c := le_of_skipTo hskip
      rw [align_cons_cons, clearBy]
      by_cases heq : c = b
      · subst heq
        rw [if_neg (lt_irrefl c), if_neg (lt_irrefl c), if_pos rfl, keepRows_cons,
          keepRows_align_cons hf hlt]
      · rw [if_pos (Nat.lt_of_le_of_ne hbc (Ne.symm heq)), if_neg heq, keepRows_cons, hzero]

/-- With nothing to clear, every word is left. -/
theorem clearBits_nil (h : ∀ p ∈ xs, p.2 ≠ 0) : clearBits xs [] = xs := by
  induction xs with
  | nil => rfl
  | cons p xs ih =>
    obtain ⟨hp, hxs⟩ := List.forall_mem_cons.1 h
    exact (if_neg hp).trans (congrArg _ (ih hxs))

theorem Canonical.subtract_eq (hx : xs.Canonical) (ys : BitWords) :
    xs.subtract ys = BitWords.keepRows (fun v w => v &&& ~~~ w) (xs.align ys) := by
  rw [← clearBits_eq hx.ascending, BitWords.subtract]
  split
  · rename_i hempty
    rcases Bool.or_eq_true _ _ ▸ hempty with hempty | hempty
    · rw [List.isEmpty_iff.1 hempty, clearBits]
    · rw [List.isEmpty_iff.1 hempty, clearBits_nil hx.nonzero]
  · rfl

theorem Canonical.subtract (hx : xs.Canonical) (hy : ys.Canonical) :
    (xs.subtract ys).Canonical := by
  rw [hx.subtract_eq]
  exact hx.keepRows hy _

theorem Canonical.mem_subtract (hx : xs.Canonical) (hy : ys.Canonical) :
    e ∈ (xs.subtract ys).toList ↔ e ∈ xs.toList ∧ e ∉ ys.toList := by
  refine ⟨fun h => ⟨mem_toList_of_subtract h, fun hmem => ?_⟩, fun ⟨h, hno⟩ => ?_⟩
  · rw [hx.subtract_eq] at h
    obtain ⟨r, hr, hb, hi⟩ := mem_toList_keepRows.1 h
    rw [BitVec.getLsbD_and, BitVec.getLsbD_not, (hx.hasRight_iff hy hr hb).2 hmem] at hi
    simp at hi
  · exact (mem_toList_subtract_or h).resolve_right hno

/-! ## Intersection -/

/-- An intersection keeps of each row the bits on both sides. It may end with the shorter vector,
since what is left of the other one has no bits in common with it. -/
theorem intersect_eq (xs ys : BitWords) :
    xs.intersect ys = keepRows (· &&& ·) (xs.align ys) := by
  induction xs, ys using intersect.induct with
  | case1 ys =>
    rw [intersect, align_nil_left]
    refine (keepRows_eq_nil fun r hr => ?_).symm
    obtain ⟨p, -, rfl⟩ := List.mem_map.1 hr
    exact BitVec.zero_and
  | case2 xs hxs =>
    rw [intersect, align_nil_right]
    · refine (keepRows_eq_nil fun r hr => ?_).symm
      obtain ⟨p, -, rfl⟩ := List.mem_map.1 hr
      exact BitVec.and_zero
    · exact hxs
  | case3 b v xs c w ys hbc ih =>
    rw [intersect, if_pos hbc, align_cons_cons, if_pos hbc, keepRows_cons_of_zero BitVec.and_zero,
      ih]
  | case4 b v xs c w ys hbc hcb ih =>
    rw [intersect, if_neg hbc, if_pos hcb, align_cons_cons, if_neg hbc, if_pos hcb,
      keepRows_cons_of_zero BitVec.zero_and, ih]
  | case5 b v xs c w ys hbc hcb hz ih =>
    rw [intersect, if_neg hbc, if_neg hcb, if_pos hz, align_cons_cons, if_neg hbc, if_neg hcb,
      keepRows_cons_of_zero hz, ih]
  | case6 b v xs c w ys hbc hcb hz ih =>
    rw [intersect, if_neg hbc, if_neg hcb, if_neg hz, align_cons_cons, if_neg hbc, if_neg hcb,
      keepRows_cons, if_neg hz, ih]

theorem Canonical.intersect (hx : xs.Canonical) (hy : ys.Canonical) :
    (xs.intersect ys).Canonical := by
  rw [intersect_eq]
  exact hx.keepRows hy _

theorem Canonical.mem_intersect (hx : xs.Canonical) (hy : ys.Canonical) :
    e ∈ (xs.intersect ys).toList ↔ e ∈ xs.toList ∧ e ∈ ys.toList := by
  rw [intersect_eq, mem_toList_keepRows]
  constructor
  · rintro ⟨r, hr, hb, hi⟩
    rw [BitVec.getLsbD_and, Bool.and_eq_true] at hi
    exact ⟨(hx.hasLeft_iff hy hr hb).1 hi.1, (hx.hasRight_iff hy hr hb).1 hi.2⟩
  · rintro ⟨h, hmem⟩
    obtain ⟨r, hr, hb, hl⟩ := (exists_hasLeft_align ys).2 h
    refine ⟨r, hr, hb, ?_⟩
    rw [BitVec.getLsbD_and, hl, (hx.hasRight_iff hy hr hb).2 hmem]
    rfl

/-! ## Comparisons -/

/-- A word that only the first vector has makes a full row. -/
theorem forall_isFull_align_cons {v : Word} (h : ∀ p ∈ ys, b < p.1) :
    (∀ r ∈ align ((b, v) :: xs) ys, r.IsFull) ↔ ∀ r ∈ xs.align ys, r.IsFull := by
  have hrow : align ((b, v) :: xs) ys = ⟨b, v, 0⟩ :: xs.align ys := by
    cases ys with
    | nil => rfl
    | cons q ys => exact if_pos (h q (by simp))
  rw [hrow, List.forall_mem_cons]
  exact and_iff_right BitVec.or_zero

theorem forall_isFull_align_skipTo (h : ∀ p ∈ ys, b ≤ p.1) :
    (∀ r ∈ (xs.skipTo b).align ys, r.IsFull) ↔ ∀ r ∈ xs.align ys, r.IsFull := by
  induction xs with
  | nil => rfl
  | cons p xs ih =>
    by_cases hlt : p.1 < b
    · rw [skipTo_cons_of_lt hlt, ih]
      exact (forall_isFull_align_cons fun q hq => hlt.trans_le (h q hq)).symm
    · rw [skipTo_cons_of_le (Nat.le_of_not_lt hlt)]

/-- The word `v` has all bits of `w`, tested in one of two ways. -/
theorem or_eq_left_iff {v w : Word} : v ||| w = v ↔ v &&& w = w := by
  rw [BitVec.eq_of_getLsbD_eq_iff, BitVec.eq_of_getLsbD_eq_iff]
  refine forall₂_congr fun i _ => ?_
  rw [BitVec.getLsbD_or, BitVec.getLsbD_and]
  cases v.getLsbD i <;> cases w.getLsbD i <;> simp

/-- A vector is a superset just when it fills every row. The comparison may end at a block that the
first vector lacks, since its word in the second one is not zero. -/
theorem Canonical.isSuperset_iff_isFull (hy : ys.Canonical) :
    xs.isSuperset ys = true ↔ ∀ r ∈ xs.align ys, r.IsFull := by
  induction ys generalizing xs with
  | nil =>
    rw [align_nil_right]
    exact iff_of_true rfl (forall_isFull_left xs)
  | cons q ys ih =>
    obtain ⟨c, w⟩ := q
    obtain ⟨hw, hlt, hys⟩ := hy.of_cons
    have hle : ∀ p ∈ (c, w) :: ys, c ≤ p.1 :=
      List.forall_mem_cons.2 ⟨le_rfl, fun p hp => (hlt p hp).le⟩
    have lacks : ¬ Row.IsFull ⟨c, 0, w⟩ := fun hfull => hw (BitVec.zero_or.symm.trans hfull)
    rw [← forall_isFull_align_skipTo hle, BitWords.isSuperset]
    cases hskip : xs.skipTo c with
    | nil =>
      refine iff_of_false (by simp) fun hrows => lacks (hrows _ ?_)
      rw [align_nil_left]
      exact List.mem_cons_self
    | cons p rest =>
      obtain ⟨b, v⟩ := p
      have hcb : c ≤ b := le_of_skipTo hskip
      rw [align_cons_cons, if_neg hcb.not_gt]
      dsimp only
      by_cases hbc : b = c
      · subst hbc
        rw [if_neg (lt_irrefl b), if_neg (not_not.2 rfl), List.forall_mem_cons,
          ← forall_isFull_align_cons (v := v) hlt, ← ih hys, Row.IsFull, or_eq_left_iff]
        by_cases hv : v &&& w = w
        · rw [if_neg (not_not.2 hv), and_iff_right hv]
        · rw [if_pos hv]
          exact iff_of_false (by simp) fun hrows => hv hrows.1
      · rw [if_pos (Nat.lt_of_le_of_ne hcb (Ne.symm hbc)), if_pos hbc, List.forall_mem_cons]
        exact iff_of_false (by simp) fun hrows => lacks hrows.1

theorem Canonical.isSuperset_iff (hx : xs.Canonical) (hy : ys.Canonical) :
    xs.isSuperset ys = true ↔ ∀ e ∈ ys.toList, e ∈ xs.toList :=
  hy.isSuperset_iff_isFull.trans (hx.forall_isFull_iff hy)

/-- Two vectors intersect just when some row has a bit on both sides. -/
theorem intersects_eq_false_iff (xs ys : BitWords) :
    xs.intersects ys = false ↔ ∀ r ∈ xs.align ys, r.left &&& r.right = 0 := by
  induction xs, ys using intersects.induct with
  | case1 ys =>
    rw [intersects, align_nil_left]
    refine iff_of_true rfl fun r hr => ?_
    obtain ⟨p, -, rfl⟩ := List.mem_map.1 hr
    exact BitVec.zero_and
  | case2 xs hxs =>
    rw [intersects, align_nil_right]
    · refine iff_of_true rfl fun r hr => ?_
      obtain ⟨p, -, rfl⟩ := List.mem_map.1 hr
      exact BitVec.and_zero
    · exact hxs
  | case3 b v xs c w ys hbc ih =>
    rw [intersects, if_pos hbc, align_cons_cons, if_pos hbc, List.forall_mem_cons, ih]
    exact (and_iff_right BitVec.and_zero).symm
  | case4 b v xs c w ys hbc hcb ih =>
    rw [intersects, if_neg hbc, if_pos hcb, align_cons_cons, if_neg hbc, if_pos hcb,
      List.forall_mem_cons, ih]
    exact (and_iff_right BitVec.zero_and).symm
  | case5 b v xs c w ys hbc hcb hne =>
    rw [intersects, if_neg hbc, if_neg hcb, if_pos hne, align_cons_cons, if_neg hbc, if_neg hcb,
      List.forall_mem_cons]
    exact iff_of_false (by simp) fun hrows => hne hrows.1
  | case6 b v xs c w ys hbc hcb hne ih =>
    rw [intersects, if_neg hbc, if_neg hcb, if_neg hne, align_cons_cons, if_neg hbc, if_neg hcb,
      List.forall_mem_cons, ih]
    exact (and_iff_right (not_not.1 hne)).symm

theorem Canonical.intersects_eq_false (hx : xs.Canonical) (hy : ys.Canonical) :
    xs.intersects ys = false ↔ ∀ e ∈ xs.toList, e ∉ ys.toList := by
  have hrows := hx.forall_rows hy (P := fun l w => l = true → ¬ w = true) (by simp)
  simp only [decide_eq_true_iff] at hrows
  rw [← hrows, intersects_eq_false_iff]
  refine forall₂_congr fun r _ => ?_
  rw [BitVec.eq_of_getLsbD_eq_iff]
  refine forall₂_congr fun i _ => ?_
  rw [BitVec.getLsbD_and]
  cases r.left.getLsbD i <;> cases r.right.getLsbD i <;> simp

end PointsTo.BitWords
