import PointsTo.Proofs.Analysis.Rounds

/-!
# Justification of the results

Nothing is found without a reason, in no state of any run. Every fact is about an object and has a
derivation (`Pag.Derives`), and every copy that is drawn while fields are joined has an access that
asks for it, through a node that had the object at the time.

A run is a sequence of steps (`Analysis.Steps`), so this is shown of everything that steps can lead
to. Runs that fail, or that do not have enough fuel, lead to such states as well.
-/

namespace PointsTo.Analysis

variable {p : Program} {n : NodeId} {a a' : Analysis} {e : FlowEdge}

/-! ## Copies -/

/-- An edge that is drawn in a step of a visit has been asked for before. -/
theorem VisitStep.fromAccess (h : VisitStep p n a a') (he : e ∈ a'.pag.edges) :
    e ∈ a.pag.edges ∨ a.FromAccess n e := by
  cases h with
  | pass dst objs passes => exact Or.inl (by simpa using he)
  | field obj key cloneOf => exact Or.inl (Pag.edges_addNode .. ▸ he)
  | @read r f d obj key joins load =>
    rw [pag_addCopy] at he
    refine (Pag.mem_edges_addEdge he).imp_right ?_
    rintro ⟨-, rfl, -⟩
    exact ⟨rfl, r, f, key, obj, joins, Or.inl ⟨rfl, load⟩⟩
  | @write r f s obj key joins write =>
    rw [pag_addCopy] at he
    refine (Pag.mem_edges_addEdge he).imp_right ?_
    rintro ⟨-, rfl, -⟩
    exact ⟨rfl, r, f, key, obj, joins, Or.inr ⟨rfl, write⟩⟩

/-- For every new edge there is a state on the way that does not have it yet, but asks for it. -/
theorem VisitSteps.fromAccess (h : VisitSteps p n a a') (he : e ∈ a'.pag.edges)
    (hnew : e ∉ a.pag.edges) : ∃ a₁, VisitSteps p n a a₁ ∧ VisitSteps p n a₁ a' ∧
      e ∉ a₁.pag.edges ∧ a₁.FromAccess n e := by
  induction h with
  | refl => exact absurd he hnew
  | @tail a₁ a₂ h hstep ih =>
    by_cases he₁ : e ∈ a₁.pag.edges
    · obtain ⟨a₀, h₀, h₁, hnone, hdrawn⟩ := ih he₁
      exact ⟨a₀, h₀, h₁.tail hstep, hnone, hdrawn⟩
    · exact ⟨a₁, h, .single hstep, he₁, (hstep.fromAccess he).resolve_left he₁⟩

/-! ## Facts -/

/-- Every run is a sequence of steps. In every state that steps lead to, what a node is known to
have is an object that can be derived there, and every copy that joining fields adds is drawn for an
object that the node has. -/
theorem facts_justified (p : Program) (seed : Seed) (entries : List MethodSig) (c : Config) :
    (∀ fuel, Steps p (ofGraph (seed.graph p entries) c)
      ((solve { program := p, models := LibraryModel.standard, fuel } c.scale).run
        (ofGraph (seed.graph p entries) c)).2) ∧
    ∀ a, Steps p (ofGraph (seed.graph p entries) c) a →
      (∀ n o, o ∈ a.pag.ptsOf n ∨ o ∈ a.facts.propagatedOf n ∨ o ∈ a.facts.freshOf n →
        a.pag.isObject o = true ∧ a.pag.Derives p o n) ∧
      ∀ n e, e ∈ (a.joinFields n).pag.edges → e ∉ a.pag.edges →
        ∃ a₁, VisitSteps p n a a₁ ∧ VisitSteps p n a₁ (a.joinFields n) ∧
          e ∉ a₁.pag.edges ∧ a₁.FromAccess n e := by
  refine ⟨fun fuel => (solve_start_spec fuel).1, fun a ha => ⟨fun n o ho => ?_, ?_⟩⟩
  · have hgrounded := ha.grounded (grounded_ofGraph (seed.graph_consistent p entries) c)
    have hall : o ∈ a.facts.all n := by
      rcases ho with ho | ho
      · exact hgrounded.exposed ho
      · exact DiffStore.mem_all.2 ho
    exact ⟨hgrounded.object hall, hgrounded.derived hall⟩
  · intro n e he hnew
    have hgrounded := ha.grounded (grounded_ofGraph (seed.graph_consistent p entries) c)
    exact (joinFields_visitSteps hgrounded).1.fromAccess he hnew

end PointsTo.Analysis
