import PointsTo.Pag.Summary

/-!
# What goes in a summary

Static calls, returned values and free locals each go in a list of their own. The rest of the
summary, above all its moves, is as it was (`Summary.foldl_addStaticCall`, `Summary.addReturn_eq`,
`Summary.foldl_addFree`).
-/

namespace PointsTo.Summary

variable {v w : ValueId} {free : List FreeLocal} {x : FreeLocal}

theorem foldl_addStaticCall (sites : List CallSite) (s : Summary) :
    sites.foldl addStaticCall s = { s with staticCalls := s.staticCalls ++ sites } := by
  induction sites generalizing s with
  | nil => simp
  | cons site sites ih =>
    rw [List.foldl_cons, ih]
    simp [addStaticCall]

theorem addReturn_eq (s : Summary) (v : ValueId) :
    s.addReturn v = { s with returns := (s.addReturn v).returns } := by
  unfold addReturn
  split <;> rfl

theorem mem_addReturn {s : Summary} : w ∈ (s.addReturn v).returns ↔ w ∈ s.returns ∨ w = v := by
  unfold addReturn
  split
  · rename_i hlisted
    refine ⟨Or.inl, ?_⟩
    rintro (hw | rfl)
    · exact hw
    · exact List.contains_iff_mem.1 hlisted
  · simp

theorem foldl_addFree (free : List FreeLocal) (s : Summary) :
    free.foldl addFree s = { s with free := (free.foldl addFree s).free } := by
  induction free generalizing s with
  | nil => rfl
  | cons f free ih =>
    have hone : s.addFree f = { s with free := (s.addFree f).free } := by
      unfold addFree
      split <;> rfl
    rw [List.foldl_cons, ih, hone]

theorem mem_of_mem_foldl_addFree {s : Summary} (h : x ∈ (free.foldl addFree s).free) :
    x ∈ s.free ∨ x ∈ free := by
  induction free generalizing s with
  | nil => exact Or.inl h
  | cons f free ih =>
    rcases ih h with hx | hx
    · unfold addFree at hx
      split at hx
      · exact Or.inl hx
      · rcases List.mem_append.1 hx with hx | hx
        · exact Or.inl hx
        · exact Or.inr (List.mem_singleton.1 hx ▸ List.mem_cons_self)
    · exact Or.inr (List.mem_cons_of_mem _ hx)

end PointsTo.Summary
