import PointsTo.Yaml.Token
import PointsTo.Yaml.Writer

/-!
# Moving along a text

A cursor that moves over a part of a text stands at what follows it. Within a line the column grows
with every character; behind a break it counts the spaces since.
-/

namespace PointsTo.Yaml

namespace Cursor

variable {cur : Cursor} {pre rest : List Char}

theorem moveTo_of_append (h : cur.rest = pre ++ rest) : cur.moveTo rest = cur.skip pre.length := by
  rw [moveTo, h, List.length_append, Nat.add_sub_cancel]

theorem moveTo_self (cur : Cursor) : cur.moveTo cur.rest = cur := by
  rw [moveTo, Nat.sub_self]
  rfl

theorem skip_add (m n : Nat) (cur : Cursor) : cur.skip (m + n) = (cur.skip m).skip n := by
  induction m generalizing cur with
  | zero => rw [Nat.zero_add]; rfl
  | succ m ih => rw [Nat.succ_add]; exact ih cur.next

theorem rest_next {c : Char} {cs : List Char} (h : cur.rest = c :: cs) : cur.next.rest = cs := by
  unfold next
  rw [h]
  dsimp only
  split <;> rfl

theorem rest_skip (h : cur.rest = pre ++ rest) : (cur.skip pre.length).rest = rest := by
  induction pre generalizing cur with
  | nil => exact h
  | cons c pre ih => exact ih (rest_next h)

theorem rest_moveTo (h : cur.rest = pre ++ rest) : (cur.moveTo rest).rest = rest := by
  rw [moveTo_of_append h]
  exact rest_skip h

theorem next_line {c : Char} {cs : List Char} (h : cur.rest = c :: cs) (hc : isBreak c = false) :
    cur.next = ⟨cs, cur.line, cur.col + 1, cur.width + c.utf8Size⟩ := by
  unfold next
  rw [h]
  simp [hc]

theorem next_break {b : Char} {cs : List Char} (h : cur.rest = b :: cs) (hb : isBreak b = true) :
    cur.next = { rest := cs, line := cur.line + 1 } := by
  unfold next
  rw [h]
  simp [hb]

/-- Within a line. A character takes four bytes at most. -/
theorem skip_line (h : cur.rest = pre ++ rest) (hpre : ∀ c ∈ pre, isBreak c = false) :
    (cur.skip pre.length).line = cur.line ∧ (cur.skip pre.length).col = cur.col + pre.length ∧
      (cur.skip pre.length).width ≤ cur.width + 4 * pre.length := by
  induction pre generalizing cur with
  | nil => exact ⟨rfl, rfl, Nat.le_refl _⟩
  | cons c pre ih =>
    obtain ⟨hc, hrest⟩ := List.forall_mem_cons.1 hpre
    have hsize := c.utf8Size_le_four
    have hnext := next_line h hc
    have hmore := ih (rest_next h) hrest
    rw [hnext] at hmore
    obtain ⟨hline, hcol, hwidth⟩ := hmore
    rw [List.length_cons, skip, hnext]
    dsimp only at hcol hwidth
    exact ⟨hline, by omega, by omega⟩

theorem col_moveTo_char {c : Char} (h : cur.rest = c :: rest) (hc : isBreak c = false) :
    (cur.moveTo rest).col = cur.col + 1 := by
  have hsplit : cur.rest = [c] ++ rest := h
  rw [moveTo_of_append hsplit]
  exact (skip_line hsplit (List.forall_mem_singleton.2 hc)).2.1

/-- Behind a break the column counts the spaces. -/
theorem col_moveTo_indent {b : Char} (hb : isBreak b = true) {n : Nat}
    (h : cur.rest = pre ++ b :: (spaces n ++ rest)) : (cur.moveTo rest).col = n := by
  have hbreak := next_break (rest_skip h) hb
  have hspaces : ∀ c ∈ spaces n, isBreak c = false := fun c hc => by
    rw [List.eq_of_mem_replicate hc]
    decide
  have hcol := (skip_line (congrArg Cursor.rest hbreak) hspaces).2.1
  rw [hbreak] at hcol
  have hsplit : cur.rest = (pre ++ b :: spaces n) ++ rest := by simp [h]
  rw [moveTo_of_append hsplit, List.length_append, skip_add, List.length_cons, Cursor.skip, hbreak,
    hcol, spaces, List.length_replicate, Nat.zero_add]

end Cursor

end PointsTo.Yaml
