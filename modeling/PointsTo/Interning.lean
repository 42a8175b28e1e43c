/-!
# Interning

A table hands out dense ids: the id of a value is the position at which it was first seen. Asking
again for a value gives the same id and leaves the table alone, and an id once given always reads
back as the same value.
-/

namespace PointsTo

variable {α : Type} [BEq α]

/-- The id of `x`, with the table that knows it. -/
def intern (table : Array α) (x : α) : Nat × Array α :=
  match table.findIdx? (· == x) with
  | some i => (i, table)
  | none => (table.size, table.push x)

/-- The table after `x` was asked for. -/
abbrev interned (table : Array α) (x : α) : Array α :=
  (intern table x).2

/-- The id reads back as the value. -/
theorem getElem?_intern [LawfulBEq α] (table : Array α) (x : α) :
    (intern table x).2[(intern table x).1]? = some x := by
  unfold intern
  split
  · rename_i i h
    obtain ⟨hlt, hx, -⟩ := Array.findIdx?_eq_some_iff_getElem.1 h
    simpa [hlt] using hx
  · simp

/-- Ids given earlier keep their values. -/
theorem getElem?_intern_of_lt (table : Array α) (x : α) {i : Nat} (h : i < table.size) :
    (intern table x).2[i]? = table[i]? := by
  unfold intern
  split
  · rfl
  · rw [Array.getElem?_push_lt h, Array.getElem?_eq_getElem h]

/-- A table only grows. -/
theorem size_le_size_intern (table : Array α) (x : α) :
    table.size ≤ (intern table x).2.size := by
  unfold intern
  split <;> simp

end PointsTo
