/-!
# Ascending lists

A finite set of numbers kept as a strictly ascending list. Every operation below takes ascending
lists to ascending lists, so two lists are equal exactly when they hold the same numbers, and
listing a set is reading it off.
-/

namespace PointsTo.Ascending

/-- Puts `x` at its place; a number that is already there is not repeated. -/
def insert (x : Nat) : List Nat → List Nat
  | [] => [x]
  | y :: ys => if x < y then x :: y :: ys else if x = y then y :: ys else y :: insert x ys

/-- The numbers of `xs`, ascending and without repetition. -/
def ofList (xs : List Nat) : List Nat :=
  xs.foldl (fun acc x => insert x acc) []

/-- The numbers of either list. -/
def union (xs ys : List Nat) : List Nat :=
  ys.foldl (fun acc y => insert y acc) xs

/-- The numbers of `xs` that are not in `ys`. -/
def subtract (xs ys : List Nat) : List Nat :=
  xs.filter fun x => !ys.contains x

/-- The numbers of both lists. -/
def intersect (xs ys : List Nat) : List Nat :=
  xs.filter fun x => ys.contains x

/-- Whether some number is in both lists. The shorter one is gone through. -/
def intersects (xs ys : List Nat) : Bool :=
  if xs.length ≤ ys.length then xs.any ys.contains else ys.any xs.contains

/-! ## Membership -/

@[simp] theorem mem_insert {x y : Nat} {xs : List Nat} : y ∈ insert x xs ↔ y = x ∨ y ∈ xs := by
  induction xs with
  | nil => simp [insert]
  | cons z zs ih => grind [insert]

@[simp] theorem mem_union {x : Nat} {xs ys : List Nat} : x ∈ union xs ys ↔ x ∈ xs ∨ x ∈ ys := by
  unfold union
  induction ys generalizing xs with
  | nil => simp
  | cons y ys ih => grind [mem_insert]

@[simp] theorem mem_ofList {x : Nat} {xs : List Nat} : x ∈ ofList xs ↔ x ∈ xs := by
  change x ∈ union [] xs ↔ x ∈ xs
  simp

@[simp] theorem mem_subtract {x : Nat} {xs ys : List Nat} :
    x ∈ subtract xs ys ↔ x ∈ xs ∧ x ∉ ys := by
  simp [subtract]

@[simp] theorem mem_intersect {x : Nat} {xs ys : List Nat} :
    x ∈ intersect xs ys ↔ x ∈ xs ∧ x ∈ ys := by
  simp [intersect]

theorem intersects_iff {xs ys : List Nat} : intersects xs ys = true ↔ ∃ x ∈ xs, x ∈ ys := by
  unfold intersects
  split
  · simp
  · simp [and_comm]

/-! ## Length -/

theorem length_le_insert (x : Nat) (xs : List Nat) : xs.length ≤ (insert x xs).length := by
  induction xs with
  | nil => simp [insert]
  | cons y ys ih => grind [insert]

theorem length_le_union (xs ys : List Nat) : xs.length ≤ (union xs ys).length := by
  unfold union
  induction ys generalizing xs with
  | nil => exact Nat.le_refl _
  | cons y ys ih => exact Nat.le_trans (length_le_insert y xs) (ih (insert y xs))

/-- A number that makes the list no longer is in it. -/
theorem mem_of_length_insert {x : Nat} {xs : List Nat} (h : (insert x xs).length = xs.length) :
    x ∈ xs := by
  induction xs with
  | nil => simp [insert] at h
  | cons y ys ih => grind [insert]

/-- Numbers that make the list no longer are in it. -/
theorem mem_of_length_union {xs ys : List Nat} (h : (union xs ys).length = xs.length) {x : Nat}
    (hx : x ∈ ys) : x ∈ xs := by
  induction ys generalizing xs with
  | nil => simp at hx
  | cons y ys ih =>
    change (union (insert y xs) ys).length = xs.length at h
    have hle := length_le_union (insert y xs) ys
    have hge := length_le_insert y xs
    have hy : y ∈ xs := mem_of_length_insert (by omega)
    have hrest : (union (insert y xs) ys).length = (insert y xs).length := by omega
    rcases List.mem_cons.1 hx with rfl | hx
    · exact hy
    · rcases mem_insert.1 (ih hrest hx) with rfl | hx
      · exact hy
      · exact hx

theorem insert_of_mem {x : Nat} {xs : List Nat} (hasc : xs.Pairwise (· < ·)) (h : x ∈ xs) :
    insert x xs = xs := by
  induction xs with
  | nil => simp at h
  | cons y ys ih =>
    rw [List.pairwise_cons] at hasc
    grind [insert]

theorem union_of_subset {xs ys : List Nat} (hasc : xs.Pairwise (· < ·)) (h : ∀ y ∈ ys, y ∈ xs) :
    union xs ys = xs := by
  induction ys with
  | nil => rfl
  | cons y ys ih =>
    change union (insert y xs) ys = xs
    rw [insert_of_mem hasc (h y (by simp))]
    exact ih fun z hz => h z (by simp [hz])

/-! ## Order -/

theorem pairwise_insert {x : Nat} {xs : List Nat} (h : xs.Pairwise (· < ·)) :
    (insert x xs).Pairwise (· < ·) := by
  induction xs with
  | nil => simp [insert]
  | cons y ys ih =>
    rw [List.pairwise_cons] at h
    unfold insert
    split
    · grind [List.pairwise_cons]
    · split
      · grind [List.pairwise_cons]
      · rw [List.pairwise_cons]
        refine ⟨fun z hz => ?_, ih h.2⟩
        rcases mem_insert.1 hz with rfl | hz
        · omega
        · exact h.1 z hz

theorem pairwise_union {xs ys : List Nat} (h : xs.Pairwise (· < ·)) :
    (union xs ys).Pairwise (· < ·) := by
  unfold union
  induction ys generalizing xs with
  | nil => exact h
  | cons y ys ih => exact ih (pairwise_insert h)

theorem pairwise_ofList (xs : List Nat) : (ofList xs).Pairwise (· < ·) :=
  pairwise_union List.Pairwise.nil

theorem pairwise_subtract {xs ys : List Nat} (h : xs.Pairwise (· < ·)) :
    (subtract xs ys).Pairwise (· < ·) :=
  h.filter _

theorem pairwise_intersect {xs ys : List Nat} (h : xs.Pairwise (· < ·)) :
    (intersect xs ys).Pairwise (· < ·) :=
  h.filter _

end PointsTo.Ascending
