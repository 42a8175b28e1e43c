import Mathlib.Data.List.Nodup
import Mathlib.Logic.Relation
import PointsTo.CallGraph.Basic

/-!
# What a walk visits

A walk visits exactly what is reachable from where it starts. What was visited stays visited, and
the successors of what was visited are visited or on the stack, so at the end, when the stack is
empty, nothing reachable is left out.
-/

namespace PointsTo

namespace Reach

variable {α : Type} [DecidableEq α] {edges : List (α × α)} {stack visited : List α} {x y z : α}

theorem mem_successors : y ∈ successors edges x ↔ (x, y) ∈ edges := by
  simp only [successors, List.mem_map, List.mem_filter, decide_eq_true_eq]
  constructor
  · rintro ⟨e, ⟨he, rfl⟩, rfl⟩
    exact he
  · exact fun h => ⟨(x, y), ⟨h, rfl⟩, rfl⟩

/-- There is a way along the edges. -/
def Leads (edges : List (α × α)) : α → α → Prop :=
  Relation.ReflTransGen fun x y => (x, y) ∈ edges

omit [DecidableEq α] in
theorem Leads.mono {edges' : List (α × α)} (h : edges ⊆ edges') (hxy : Leads edges x y) :
    Leads edges' x y := by
  induction hxy with
  | refl => exact .refl
  | tail _ he ih => exact .tail ih (h he)

/-- Nothing else is visited. -/
theorem leads_of_mem_walk (h : y ∈ walk edges stack visited) :
    y ∈ visited ∨ ∃ x ∈ stack, Leads edges x y := by
  fun_induction walk edges stack visited with
  | case1 visited => exact Or.inl h
  | case2 visited x rest hx ih =>
    rcases ih h with hv | ⟨z, hz, hzy⟩
    · exact Or.inl hv
    · exact Or.inr ⟨z, List.mem_cons_of_mem _ hz, hzy⟩
  | case3 visited x rest hx ih =>
    rcases ih h with hv | ⟨z, hz, hzy⟩
    · rcases List.mem_append.1 hv with hv | hv
      · exact Or.inl hv
      · rw [List.mem_singleton] at hv
        subst hv
        exact Or.inr ⟨y, List.mem_cons_self, .refl⟩
    · rcases List.mem_append.1 hz with hz | hz
      · rw [List.mem_reverse, mem_successors] at hz
        exact Or.inr ⟨x, List.mem_cons_self, .head hz hzy⟩
      · exact Or.inr ⟨z, List.mem_cons_of_mem _ hz, hzy⟩

theorem subset_walk : visited ⊆ walk edges stack visited ∧ stack ⊆ walk edges stack visited := by
  fun_induction walk edges stack visited with
  | case1 visited => simp
  | case2 visited x rest hx ih =>
    refine ⟨ih.1, fun z hz => ?_⟩
    rcases List.mem_cons.1 hz with rfl | hz
    · exact ih.1 hx
    · exact ih.2 hz
  | case3 visited x rest hx ih =>
    refine ⟨fun z hz => ih.1 (List.mem_append_left _ hz), fun z hz => ?_⟩
    rcases List.mem_cons.1 hz with rfl | hz
    · exact ih.1 (by simp)
    · exact ih.2 (List.mem_append_right _ hz)

/-- The list of visited things is only added to. -/
theorem exists_walk_eq (edges : List (α × α)) (stack visited : List α) :
    ∃ more, walk edges stack visited = visited ++ more := by
  fun_induction walk edges stack visited with
  | case1 visited => exact ⟨[], by simp⟩
  | case2 visited x rest hx ih => exact ih
  | case3 visited x rest hx ih =>
    obtain ⟨more, hmore⟩ := ih
    exact ⟨x :: more, by rw [hmore, List.append_assoc, List.singleton_append]⟩

/-- Successors are not left out. -/
theorem walk_closed (hclosed : ∀ x ∈ visited, ∀ y, (x, y) ∈ edges → y ∈ visited ∨ y ∈ stack)
    (hx : x ∈ walk edges stack visited) (hxy : (x, y) ∈ edges) : y ∈ walk edges stack visited := by
  fun_induction walk edges stack visited with
  | case1 visited => exact (hclosed x hx y hxy).resolve_right (by simp)
  | case2 visited z rest hz ih =>
    refine ih (fun v hv w hvw => ?_) hx
    rcases hclosed v hv w hvw with hw | hw
    · exact Or.inl hw
    · rcases List.mem_cons.1 hw with rfl | hw
      · exact Or.inl hz
      · exact Or.inr hw
  | case3 visited z rest hz ih =>
    refine ih (fun v hv w hvw => ?_) hx
    rcases List.mem_append.1 hv with hv | hv
    · rcases hclosed v hv w hvw with hw | hw
      · exact Or.inl (List.mem_append_left _ hw)
      · rcases List.mem_cons.1 hw with rfl | hw
        · exact Or.inl (by simp)
        · exact Or.inr (List.mem_append_right _ hw)
    · rw [List.mem_singleton] at hv
      subst hv
      exact Or.inr (List.mem_append_left _ (List.mem_reverse.2 (mem_successors.2 hvw)))

/-- From several starts, exactly what one of them leads to is visited. -/
theorem mem_walk_iff_exists : y ∈ walk edges stack [] ↔ ∃ x ∈ stack, Leads edges x y := by
  constructor
  · intro h
    rcases leads_of_mem_walk h with hv | hx
    · cases hv
    · exact hx
  · rintro ⟨x, hx, h⟩
    induction h with
    | refl => exact subset_walk.2 hx
    | tail _ he ih => exact walk_closed (by simp) ih he

theorem mem_walk_iff : y ∈ walk edges [x] [] ↔ Leads edges x y := by
  simp [mem_walk_iff_exists]

/-- Nothing is visited twice. -/
theorem nodup_walk (h : visited.Nodup) : (walk edges stack visited).Nodup := by
  fun_induction walk edges stack visited with
  | case1 visited => exact h
  | case2 visited x rest hx ih => exact ih h
  | case3 visited x rest hx ih =>
    have hmore := h.concat hx
    rw [List.concat_eq_append] at hmore
    exact ih hmore

end Reach

namespace CallGraph

variable {g g' : CallGraph} {f f' : FuncId}

theorem knows_iff : g.knows f = true ↔ f < g.nodes.size ∨ ∃ l ∈ g.links, l.1 = f ∨ l.2 = f := by
  simp only [knows, links, Bool.or_eq_true, decide_eq_true_eq, Array.any_eq_true', beq_iff_eq,
    List.mem_map, Array.mem_toList_iff]
  refine or_congr_right ⟨?_, ?_⟩
  · rintro ⟨e, he, hf⟩
    exact ⟨(e.src, e.dst), ⟨e, he, rfl⟩, hf⟩
  · rintro ⟨_, ⟨e, he, rfl⟩, hf⟩
    exact ⟨e, he, hf⟩

theorem reachable_iff :
    g.reachable f f' = true ↔ g.knows f = true ∧ g.knows f' = true ∧ Reach.Leads g.links f f' := by
  simp only [reachable, Bool.and_eq_true, List.contains_iff_mem, Reach.mem_walk_iff, and_assoc]

/-- What can be reached stays so when there are more calls. -/
theorem reachable_mono (hn : g.nodes.size ≤ g'.nodes.size) (hl : g.links ⊆ g'.links)
    (h : g.reachable f f' = true) : g'.reachable f f' = true := by
  have hknows : ∀ {f}, g.knows f = true → g'.knows f = true := by
    intro f hf
    rw [knows_iff] at hf ⊢
    rcases hf with hf | ⟨l, hmem, hf⟩
    · exact Or.inl (Nat.lt_of_lt_of_le hf hn)
    · exact Or.inr ⟨l, hl hmem, hf⟩
  obtain ⟨h₁, h₂, hleads⟩ := reachable_iff.1 h
  exact reachable_iff.2 ⟨hknows h₁, hknows h₂, hleads.mono hl⟩

end CallGraph

end PointsTo
