import Mathlib.Data.List.Basic
import Mathlib.Tactic.Tauto
import PointsTo.Sets.BitWords

/-!
# Members of a bit vector

What each operation on bit vectors lists. Nothing is assumed about the order of the blocks. A
listing goes through all words, so a block that came twice would only be listed twice; the look-ups
find a word of the list and never more, which is the direction that the lemmas about them give.

A merge of two vectors is read off their *rows* (`align`): the words of both at one block, zero
where a vector lacks it. The rows are the same for every merge, whichever of them it makes use of.
-/

namespace PointsTo.BitWords

variable {ws xs ys : BitWords} {b e x : Nat}

/-! ## Listing -/

theorem mem_positions {w : Word} {i : Nat} : i ∈ positions w ↔ w.getLsbD i = true := by
  simp only [positions, List.mem_filter, List.mem_range, and_iff_right_iff_imp]
  intro h
  exact BitVec.lt_of_getLsbD h

theorem mem_toList : e ∈ ws.toList ↔ ∃ p ∈ ws, p.1 = e / 64 ∧ p.2.getLsbD (e % 64) = true := by
  simp only [toList, List.mem_flatMap, List.mem_map, mem_positions]
  constructor
  · rintro ⟨p, hp, i, hi, rfl⟩
    have hlt : i < 64 := BitVec.lt_of_getLsbD hi
    have hdiv : (64 * p.1 + i) / 64 = p.1 := by omega
    have hmod : (64 * p.1 + i) % 64 = i := by omega
    exact ⟨p, hp, hdiv.symm, by rw [hmod]; exact hi⟩
  · rintro ⟨p, hp, hb, hi⟩
    exact ⟨p, hp, e % 64, hi, by omega⟩

theorem mem_toList_cons {p : Nat × Word} :
    e ∈ toList (p :: ws) ↔ (p.1 = e / 64 ∧ p.2.getLsbD (e % 64) = true) ∨ e ∈ ws.toList := by
  simp only [mem_toList, List.mem_cons, exists_eq_or_imp]

theorem mem_toList_append : e ∈ toList (xs ++ ys) ↔ e ∈ xs.toList ∨ e ∈ ys.toList := by
  simp [toList]

/-! ## Single members -/

theorem getLsbD_mask (h : e / 64 = x / 64) : (mask x).getLsbD (e % 64) = decide (e = x) := by
  have hlt : e % 64 < 64 := Nat.mod_lt _ (by decide)
  rw [mask, BitVec.getLsbD_twoPow]
  by_cases hm : x % 64 = e % 64
  · have hx : e = x := by omega
    simp [hm, hx, hlt]
  · have hx : e ≠ x := by omega
    simp [hm, hx]

theorem mask_ne_zero (e : Nat) : mask e ≠ 0 := by
  intro hz
  have hbit : (mask e).getLsbD (e % 64) = true := by
    rw [getLsbD_mask rfl]
    simp
  rw [hz] at hbit
  simp at hbit

theorem and_mask_ne_zero {w : Word} : (w &&& mask e != 0) = w.getLsbD (e % 64) := by
  have hne := mask_ne_zero e
  unfold mask at hne ⊢
  rw [BitVec.and_twoPow]
  cases w.getLsbD (e % 64) with
  | false => rfl
  | true => simpa using hne

theorem contains_eq : ws.contains e = (ws.wordAt (e / 64)).getLsbD (e % 64) := by
  unfold contains wordAt
  cases ws.lookup (e / 64) with
  | none => simp
  | some w => exact and_mask_ne_zero

/-- An insertion answers the opposite of a look-up. -/
theorem insert_fst (ws : BitWords) (e : Nat) : (ws.insert e).1 = !ws.contains e := by
  unfold insert contains
  cases ws.lookup (e / 64) with
  | none => rfl
  | some w => exact (Bool.not_not _).symm

/-- A removal answers what a look-up does. -/
theorem erase_fst (ws : BitWords) (e : Nat) : (ws.erase e).1 = ws.contains e := by
  unfold erase contains
  cases ws.lookup (e / 64) with
  | none => rfl
  | some w => rfl

theorem mem_of_lookup {w : Word} (h : ws.lookup b = some w) : (b, w) ∈ ws := by
  obtain ⟨l₁, l₂, rfl, -⟩ := List.lookup_eq_some_iff.1 h
  simp

/-- A word that a look-up finds is in the list. -/
theorem mem_toList_of_contains (h : ws.contains e = true) : e ∈ ws.toList := by
  unfold contains at h
  cases hl : ws.lookup (e / 64) with
  | none => simp [hl] at h
  | some w =>
    rw [hl] at h
    exact mem_toList.2 ⟨_, mem_of_lookup hl, rfl, and_mask_ne_zero.symm.trans h⟩

theorem mem_toList_place {m : Word} :
    e ∈ (ws.place b m).toList ↔ e ∈ ws.toList ∨ b = e / 64 ∧ m.getLsbD (e % 64) = true := by
  have hws : e ∈ ws.toList ↔
      e ∈ toList (ws.takeWhile fun p => p.1 < b) ∨ e ∈ (ws.skipTo b).toList := by
    rw [skipTo, ← mem_toList_append, List.takeWhile_append_dropWhile]
  rw [place, mem_toList_append, mem_toList_cons, hws]
  tauto

theorem mem_toList_mapWords {f : Nat → Word → Word} :
    e ∈ toList (ws.mapWords f) ↔
      ∃ p ∈ ws, p.1 = e / 64 ∧ (f p.1 p.2).getLsbD (e % 64) = true := by
  simp only [mem_toList, mapWords, List.mem_filterMap]
  constructor
  · rintro ⟨q, ⟨p, hp, hq⟩, hb, hi⟩
    split at hq
    · cases hq
    · cases hq
      exact ⟨p, hp, hb, hi⟩
  · rintro ⟨p, hp, hb, hi⟩
    refine ⟨(p.1, f p.1 p.2), ⟨p, hp, ?_⟩, hb, hi⟩
    rw [if_neg]
    intro hz
    rw [hz] at hi
    simp at hi

/-- A change to the word of block `b` shows in the members of that block alone. -/
theorem mem_toList_modifyWord {f : Word → Word} :
    e ∈ toList (ws.modifyWord b f) ↔ ∃ p ∈ ws, p.1 = e / 64 ∧
      (if e / 64 = b then f p.2 else p.2).getLsbD (e % 64) = true := by
  rw [modifyWord, mem_toList_mapWords]
  refine exists_congr fun p => and_congr_right fun _ => and_congr_right fun hb => ?_
  rw [hb]

theorem mem_toList_insert : e ∈ toList (ws.insert x).2 ↔ e ∈ ws.toList ∨ e = x := by
  unfold insert
  cases hl : ws.lookup (x / 64) with
  | none =>
    have hmask : x / 64 = e / 64 ∧ (mask x).getLsbD (e % 64) = true ↔ e = x := by
      constructor
      · rintro ⟨hb, hi⟩
        simpa [getLsbD_mask hb.symm] using hi
      · rintro rfl
        exact ⟨rfl, by simp [getLsbD_mask]⟩
    rw [mem_toList_place, hmask]
  | some w =>
    rw [mem_toList_modifyWord, mem_toList]
    by_cases hb : e / 64 = x / 64
    · simp only [hb, if_true, BitVec.getLsbD_or, getLsbD_mask hb, Bool.or_eq_true,
        decide_eq_true_eq]
      constructor
      · rintro ⟨p, hp, hpb, hi | hx⟩
        · exact Or.inl ⟨p, hp, hpb, hi⟩
        · exact Or.inr hx
      · rintro (⟨p, hp, hpb, hi⟩ | hx)
        · exact ⟨p, hp, hpb, Or.inl hi⟩
        · exact ⟨_, mem_of_lookup hl, rfl, Or.inr hx⟩
    · have hx : e ≠ x := by
        intro heq
        exact hb (by rw [heq])
      simp [hb, hx]

theorem mem_toList_erase : e ∈ toList (ws.erase x).2 ↔ e ∈ ws.toList ∧ e ≠ x := by
  have hlt : e % 64 < 64 := Nat.mod_lt _ (by decide)
  unfold erase
  cases hl : ws.lookup (x / 64) with
  | none =>
    refine (and_iff_left_of_imp ?_).symm
    rintro he rfl
    obtain ⟨p, hp, hb, -⟩ := mem_toList.1 he
    simpa [hb] using List.lookup_eq_none_iff.1 hl p hp
  | some w =>
    rw [mem_toList_modifyWord, mem_toList]
    by_cases hb : e / 64 = x / 64
    · simp only [hb, if_true, BitVec.getLsbD_and, BitVec.getLsbD_not, getLsbD_mask hb, hlt,
        Bool.and_eq_true, decide_true, true_and, Bool.not_eq_true', decide_eq_false_iff_not]
      constructor
      · rintro ⟨p, hp, hpb, hi, hx⟩
        exact ⟨⟨p, hp, hpb, hi⟩, hx⟩
      · rintro ⟨⟨p, hp, hpb, hi⟩, hx⟩
        exact ⟨p, hp, hpb, hi, hx⟩
    · have hx : e ≠ x := by
        intro heq
        exact hb (by rw [heq])
      simp [hb, hx]

/-! ## Rows of two vectors -/

/-- The words of two vectors at one block, zero where a vector lacks it. -/
structure Row where
  block : Nat
  left : Word
  right : Word

/-- Walks the second vector up to block `b`, whose word in the first is `v`; `rest` goes on behind
it with what the walk leaves. -/
def alignWord (b : Nat) (v : Word) (rest : BitWords → List Row) : BitWords → List Row
  | [] => ⟨b, v, 0⟩ :: rest []
  | (c, w) :: ys =>
    if b < c then ⟨b, v, 0⟩ :: rest ((c, w) :: ys)
    else if c < b then ⟨c, 0, w⟩ :: alignWord b v rest ys
    else ⟨b, v, w⟩ :: rest ys

/-- The rows of two vectors, in one pass over both. -/
def align : BitWords → BitWords → List Row
  | [] => List.map fun p => ⟨p.1, 0, p.2⟩
  | (b, v) :: xs => alignWord b v (align xs)

theorem align_nil_left (ys : BitWords) : align [] ys = ys.map fun p => ⟨p.1, 0, p.2⟩ :=
  rfl

theorem align_cons_nil (b : Nat) (v : Word) (xs : BitWords) :
    align ((b, v) :: xs) [] = ⟨b, v, 0⟩ :: xs.align [] :=
  rfl

theorem align_nil_right (xs : BitWords) : xs.align [] = xs.map fun p => ⟨p.1, p.2, 0⟩ := by
  induction xs with
  | nil => rfl
  | cons p xs ih => exact congrArg _ ih

/-- The block of the next row is the lower one of those at the heads. -/
theorem align_cons_cons (b : Nat) (v : Word) (xs : BitWords) (c : Nat) (w : Word) (ys : BitWords) :
    align ((b, v) :: xs) ((c, w) :: ys) =
      if b < c then ⟨b, v, 0⟩ :: xs.align ((c, w) :: ys)
      else if c < b then ⟨c, 0, w⟩ :: align ((b, v) :: xs) ys
      else ⟨b, v, w⟩ :: xs.align ys :=
  rfl

/-- The left word of the row has the bit of `e`. -/
def Row.HasLeft (r : Row) (e : Nat) : Prop :=
  r.block = e / 64 ∧ r.left.getLsbD (e % 64) = true

/-- The right word of the row has the bit of `e`. -/
def Row.HasRight (r : Row) (e : Nat) : Prop :=
  r.block = e / 64 ∧ r.right.getLsbD (e % 64) = true

theorem not_hasLeft_zero {w : Word} : ¬ Row.HasLeft ⟨b, 0, w⟩ e := by
  simp [Row.HasLeft]

theorem not_hasRight_zero {v : Word} : ¬ Row.HasRight ⟨b, v, 0⟩ e := by
  simp [Row.HasRight]

theorem exists_hasLeft_alignWord {v : Word} {rest : BitWords → List Row}
    (h : ∀ ys, (∃ r ∈ rest ys, r.HasLeft e) ↔ e ∈ xs.toList) (ys : BitWords) :
    (∃ r ∈ alignWord b v rest ys, r.HasLeft e) ↔ e ∈ toList ((b, v) :: xs) := by
  induction ys with
  | nil =>
    rw [alignWord, List.exists_mem_cons_iff, h, mem_toList_cons]
    rfl
  | cons p ys ih =>
    obtain ⟨c, w⟩ := p
    unfold alignWord
    split
    · rw [List.exists_mem_cons_iff, h, mem_toList_cons]
      rfl
    · split
      · rw [List.exists_mem_cons_iff, or_iff_right not_hasLeft_zero, ih]
      · rw [List.exists_mem_cons_iff, h, mem_toList_cons]
        rfl

/-- The left words hold what the first vector lists. -/
theorem exists_hasLeft_align (ys : BitWords) :
    (∃ r ∈ xs.align ys, r.HasLeft e) ↔ e ∈ xs.toList := by
  induction xs generalizing ys with
  | nil =>
    refine ⟨?_, by simp [toList]⟩
    rintro ⟨r, hr, h⟩
    obtain ⟨p, -, rfl⟩ := List.mem_map.1 hr
    exact absurd h not_hasLeft_zero
  | cons p xs ih => exact exists_hasLeft_alignWord ih ys

theorem exists_hasRight_alignWord {v : Word} {rest : BitWords → List Row}
    (h : ∀ ys : BitWords, (∃ r ∈ rest ys, r.HasRight e) ↔ e ∈ ys.toList) (ys : BitWords) :
    (∃ r ∈ alignWord b v rest ys, r.HasRight e) ↔ e ∈ ys.toList := by
  induction ys with
  | nil =>
    rw [alignWord, List.exists_mem_cons_iff, or_iff_right not_hasRight_zero, h]
  | cons p ys ih =>
    obtain ⟨c, w⟩ := p
    unfold alignWord
    split
    · rw [List.exists_mem_cons_iff, or_iff_right not_hasRight_zero, h]
    · split
      · rw [List.exists_mem_cons_iff, ih, mem_toList_cons]
        rfl
      · have hbc : b = c := by omega
        rw [List.exists_mem_cons_iff, h, mem_toList_cons, hbc]
        rfl

/-- The right words hold what the second vector lists. -/
theorem exists_hasRight_align (xs : BitWords) :
    (∃ r ∈ xs.align ys, r.HasRight e) ↔ e ∈ ys.toList := by
  induction xs generalizing ys with
  | nil =>
    rw [mem_toList]
    constructor
    · rintro ⟨r, hr, hb, hw⟩
      obtain ⟨p, hp, rfl⟩ := List.mem_map.1 hr
      exact ⟨p, hp, hb, hw⟩
    · rintro ⟨p, hp, hb, hw⟩
      exact ⟨_, List.mem_map_of_mem hp, hb, hw⟩
  | cons p xs ih => exact exists_hasRight_alignWord (fun _ => ih) ys

/-! ## Union -/

/-- The row that a word of one vector alone makes is that word. -/
theorem map_or_left (xs : BitWords) :
    (xs.map fun p => (⟨p.1, p.2, 0⟩ : Row)).map (fun r => (r.block, r.left ||| r.right)) = xs := by
  rw [List.map_map]
  refine (List.map_congr_left fun p _ => ?_).trans (List.map_id xs)
  exact Prod.ext rfl BitVec.or_zero

theorem map_or_right (ys : BitWords) :
    (ys.map fun p => (⟨p.1, 0, p.2⟩ : Row)).map (fun r => (r.block, r.left ||| r.right)) = ys := by
  rw [List.map_map]
  refine (List.map_congr_left fun p _ => ?_).trans (List.map_id ys)
  exact Prod.ext rfl BitVec.zero_or

theorem merge_snd (changed : Bool) (xs ys : BitWords) :
    (merge changed xs ys).2 = (xs.align ys).map fun r => (r.block, r.left ||| r.right) := by
  induction changed, xs, ys using merge.induct with
  | case1 changed xs => rw [merge, align_nil_right, map_or_left]
  | case2 changed ys hys => rw [merge.eq_2 changed ys hys, align_nil_left, map_or_right]
  | case3 changed b v xs c w ys hbc ih =>
    rw [merge, if_pos hbc, align_cons_cons, if_pos hbc]
    simp [ih]
  | case4 changed b v xs c w ys hbc hcb ih =>
    rw [merge, if_neg hbc, if_pos hcb, align_cons_cons, if_neg hbc, if_pos hcb]
    simp [ih]
  | case5 changed b v xs c w ys hbc hcb ih =>
    rw [merge, if_neg hbc, if_neg hcb, align_cons_cons, if_neg hbc, if_neg hcb]
    simp [ih]

/-- The words of a union are the rows, with the bits of both sides. -/
theorem union_snd (xs ys : BitWords) :
    (xs.union ys).2 = (xs.align ys).map fun r => (r.block, r.left ||| r.right) := by
  unfold union
  split
  · rw [align_nil_right, map_or_left]
  · rw [align_nil_left, map_or_right]
  · exact merge_snd ..

/-- The left word has all bits of the right one. -/
def Row.IsFull (r : Row) : Prop :=
  r.left ||| r.right = r.left

theorem forall_isFull_left (xs : BitWords) :
    ∀ r ∈ xs.map fun p => (⟨p.1, p.2, 0⟩ : Row), r.IsFull := by
  intro r hr
  obtain ⟨p, -, rfl⟩ := List.mem_map.1 hr
  exact BitVec.or_zero

/-- A merge that brings no news has found every row full. -/
theorem isFull_of_merge {changed : Bool} (h : (merge changed xs ys).1 = false) :
    changed = false ∧ ∀ r ∈ xs.align ys, r.IsFull := by
  induction changed, xs, ys using merge.induct with
  | case1 changed xs =>
    rw [merge] at h
    rw [align_nil_right]
    exact ⟨h, forall_isFull_left xs⟩
  | case2 changed ys hys =>
    rw [merge.eq_2 changed ys hys] at h
    cases h
  | case3 changed b v xs c w ys hbc ih =>
    rw [merge, if_pos hbc] at h
    rw [align_cons_cons, if_pos hbc]
    obtain ⟨hchanged, hrows⟩ := ih h
    exact ⟨hchanged, List.forall_mem_cons.2 ⟨BitVec.or_zero, hrows⟩⟩
  | case4 changed b v xs c w ys hbc hcb ih =>
    rw [merge, if_neg hbc, if_pos hcb] at h
    cases (ih h).1
  | case5 changed b v xs c w ys hbc hcb ih =>
    rw [merge, if_neg hbc, if_neg hcb] at h
    rw [align_cons_cons, if_neg hbc, if_neg hcb]
    obtain ⟨hchanged, hrows⟩ := ih h
    rw [Bool.or_eq_false_iff, bne_eq_false_iff_eq] at hchanged
    exact ⟨hchanged.1, List.forall_mem_cons.2 ⟨hchanged.2, hrows⟩⟩

/-- A vector that a union does not make larger fills every row. -/
theorem isFull_of_union (h : (xs.union ys).1 = false) : ∀ r ∈ xs.align ys, r.IsFull := by
  unfold union at h
  split at h
  · rw [align_nil_right]
    exact forall_isFull_left xs
  · cases h
  · exact (isFull_of_merge h).2

theorem mem_toList_union : e ∈ toList (xs.union ys).2 ↔ e ∈ xs.toList ∨ e ∈ ys.toList := by
  rw [union_snd]
  constructor
  · intro h
    obtain ⟨p, hp, hb, hi⟩ := mem_toList.1 h
    obtain ⟨r, hr, rfl⟩ := List.mem_map.1 hp
    rw [BitVec.getLsbD_or, Bool.or_eq_true] at hi
    rcases hi with hl | hw
    · exact Or.inl ((exists_hasLeft_align ys).1 ⟨r, hr, hb, hl⟩)
    · exact Or.inr ((exists_hasRight_align xs).1 ⟨r, hr, hb, hw⟩)
  · rintro (h | h)
    · obtain ⟨r, hr, hb, hl⟩ := (exists_hasLeft_align ys).2 h
      exact mem_toList.2 ⟨_, List.mem_map_of_mem hr, hb, by simp [hl]⟩
    · obtain ⟨r, hr, hb, hw⟩ := (exists_hasRight_align xs).2 h
      exact mem_toList.2 ⟨_, List.mem_map_of_mem hr, hb, by simp [hw]⟩

/-- The first vector gains nothing only when it has all that the second lists. -/
theorem mem_toList_of_union (h : (xs.union ys).1 = false) (he : e ∈ ys.toList) : e ∈ xs.toList := by
  obtain ⟨r, hr, hb, hw⟩ := (exists_hasRight_align xs).2 he
  have hfull : r.left ||| r.right = r.left := isFull_of_union h r hr
  have hl : r.left.getLsbD (e % 64) = true := by
    rw [← hfull, BitVec.getLsbD_or, hw, Bool.or_true]
  exact (exists_hasLeft_align ys).1 ⟨r, hr, hb, hl⟩

/-! ## Difference -/

theorem skipTo_cons_of_lt {p : Nat × Word} (h : p.1 < b) : skipTo b (p :: ws) = ws.skipTo b :=
  List.dropWhile_cons_of_pos (decide_eq_true h)

theorem skipTo_cons_of_le {p : Nat × Word} (h : b ≤ p.1) : skipTo b (p :: ws) = p :: ws :=
  List.dropWhile_cons_of_neg (by simpa using h)

theorem mem_toList_of_skipTo (h : e ∈ (ws.skipTo b).toList) : e ∈ ws.toList := by
  obtain ⟨p, hp, hbit⟩ := mem_toList.1 h
  exact mem_toList.2 ⟨p, (List.dropWhile_suffix _).subset hp, hbit⟩

/-- Clearing bits leaves bits of the word. -/
theorem getLsbD_of_clearBy {v : Word} {i : Nat} (h : (clearBy b v ys).getLsbD i = true) :
    v.getLsbD i = true := by
  unfold clearBy at h
  split at h
  · exact h
  · split at h
    · rw [BitVec.getLsbD_and, Bool.and_eq_true] at h
      exact h.1
    · exact h

/-- A bit that is cleared is one of the word that it is cleared by. -/
theorem getLsbD_clearBy_or {v : Word} (hb : b = e / 64) (h : v.getLsbD (e % 64) = true) :
    (clearBy b v ys).getLsbD (e % 64) = true ∨ e ∈ ys.toList := by
  have hlt : e % 64 < 64 := Nat.mod_lt _ (by decide)
  unfold clearBy
  split
  · exact Or.inl h
  · split
    · rename_i c w ys hcb
      by_cases hw : w.getLsbD (e % 64) = true
      · exact Or.inr (mem_toList_cons.2 (Or.inl ⟨hcb.trans hb, hw⟩))
      · rw [BitVec.getLsbD_and, BitVec.getLsbD_not, h, Bool.eq_false_iff.2 hw]
        simp [hlt]
    · exact Or.inl h

/-- The next word is left with its remaining bits, if there are any. -/
theorem mem_toList_clearBits_cons {v : Word} :
    e ∈ toList (clearBits ((b, v) :: xs) ys) ↔
      (b = e / 64 ∧ (clearBy b v (ys.skipTo b)).getLsbD (e % 64) = true) ∨
        e ∈ toList (clearBits xs (ys.skipTo b)) := by
  rw [clearBits]
  split
  · rename_i hz
    simp [hz]
  · exact mem_toList_cons

/-- What a subtraction leaves was there. -/
theorem mem_toList_of_clearBits (h : e ∈ toList (clearBits xs ys)) : e ∈ xs.toList := by
  induction xs generalizing ys with
  | nil => exact h
  | cons p xs ih =>
    rcases mem_toList_clearBits_cons.1 h with ⟨hb, hi⟩ | h
    · exact mem_toList_cons.2 (Or.inl ⟨hb, getLsbD_of_clearBy hi⟩)
    · exact mem_toList_cons.2 (Or.inr (ih h))

theorem mem_toList_clearBits_or (h : e ∈ xs.toList) :
    e ∈ toList (clearBits xs ys) ∨ e ∈ ys.toList := by
  induction xs generalizing ys with
  | nil => exact Or.inl h
  | cons p xs ih =>
    rw [mem_toList_clearBits_cons]
    rcases mem_toList_cons.1 h with ⟨hb, hi⟩ | h
    · have hcleared : (clearBy p.1 p.2 (ys.skipTo p.1)).getLsbD (e % 64) = true ∨
          e ∈ (ys.skipTo p.1).toList := getLsbD_clearBy_or hb hi
      exact hcleared.imp (fun hi => Or.inl ⟨hb, hi⟩) mem_toList_of_skipTo
    · exact (ih h).imp Or.inr mem_toList_of_skipTo

theorem mem_toList_of_subtract (h : e ∈ toList (xs.subtract ys)) : e ∈ xs.toList := by
  unfold subtract at h
  split at h
  · exact h
  · exact mem_toList_of_clearBits h

/-- What a subtraction takes away is in what is subtracted. -/
theorem mem_toList_subtract_or (h : e ∈ xs.toList) :
    e ∈ toList (xs.subtract ys) ∨ e ∈ ys.toList := by
  unfold subtract
  split
  · exact Or.inl h
  · exact mem_toList_clearBits_or h

end PointsTo.BitWords
