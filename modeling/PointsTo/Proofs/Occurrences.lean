/-!
# What a sequence of operations leaves behind

A fact about a state that only certain operations can bring about, and none can undo, holds in the
end if it held at the start or such an operation occurred. Where it also matters when the operation
occurred, the state at that time is the one that the operations before it lead to.
-/

namespace PointsTo

variable {σ ω : Type} {step : σ → ω → σ} {P : σ → Prop}

theorem foldl_iff_exists {Q : ω → Prop} (hstep : ∀ s o, P (step s o) ↔ P s ∨ Q o) (s : σ)
    (ops : List ω) : P (ops.foldl step s) ↔ P s ∨ ∃ o ∈ ops, Q o := by
  induction ops generalizing s with
  | nil => simp
  | cons o ops ih => simp [ih, hstep, or_assoc]

theorem foldl_iff_occurs {When : σ → Prop} {op : ω}
    (hstep : ∀ s o, P (step s o) ↔ P s ∨ o = op ∧ When s) (s : σ) (ops : List ω) :
    P (ops.foldl step s) ↔
      P s ∨ ∃ before more, ops = before ++ op :: more ∧ When (before.foldl step s) := by
  induction ops generalizing s with
  | nil => simp
  | cons o ops ih =>
    rw [List.foldl_cons, ih, hstep, or_assoc]
    refine or_congr_right ⟨?_, ?_⟩
    · rintro (⟨rfl, h⟩ | ⟨before, more, rfl, h⟩)
      · exact ⟨[], ops, rfl, h⟩
      · exact ⟨o :: before, more, rfl, h⟩
    · rintro ⟨_ | ⟨_, before⟩, more, hops, h⟩
      · obtain ⟨rfl, rfl⟩ := List.cons.inj hops
        exact Or.inl ⟨rfl, h⟩
      · obtain ⟨rfl, rfl⟩ := List.cons.inj hops
        exact Or.inr ⟨before, more, rfl, h⟩

end PointsTo
