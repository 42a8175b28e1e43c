import PointsTo.Analysis.Query
import PointsTo.Proofs.Pag.Growth
import PointsTo.Proofs.Reach

/-!
# Relatedness

An object moves unchanged along copies, moves that leave a method and moves of a receiver. Two
nodes are connected if a path of such edges joins them, each taken in either direction. The nodes
related to a value are exactly those connected with a node of it, so they are whole connected
components, and relatedness of values is symmetric.
-/

namespace PointsTo

/-- Objects move unchanged along edges of this kind. -/
def EdgeKind.MovesUnchanged (kind : EdgeKind) : Prop :=
  kind = .copy ∨ kind = .interprocedural ∨ kind = .this

namespace Pag

variable {g : Pag} {n n' : NodeId}

/-- The one node moves objects unchanged to the other, or gets them from it so. -/
def Adjoins (g : Pag) (n n' : NodeId) : Prop :=
  ∃ kind : EdgeKind, kind.MovesUnchanged ∧ (n' ∈ g.outEdges kind n ∨ n' ∈ g.inEdges kind n)

/-- A path of such edges joins the nodes. -/
def Connected (g : Pag) : NodeId → NodeId → Prop :=
  Relation.ReflTransGen g.Adjoins

theorem adjoins_iff : g.Adjoins n n' ↔ ∃ kind : EdgeKind, kind.MovesUnchanged ∧
    (⟨kind, n, n'⟩ ∈ g.edges ∨ ⟨kind, n', n⟩ ∈ g.edges) := by
  simp only [Adjoins, mem_outEdges, mem_inEdges]

/-- What is an edge out of the one node is an edge into the other. -/
theorem Adjoins.symm (h : g.Adjoins n n') : g.Adjoins n' n := by
  obtain ⟨kind, hk, he⟩ := adjoins_iff.1 h
  exact adjoins_iff.2 ⟨kind, hk, he.symm⟩

theorem Connected.symm (h : g.Connected n n') : g.Connected n' n := by
  induction h with
  | refl => exact .refl
  | tail _ he ih => exact .head he.symm ih

end Pag

namespace Analysis

variable {a : Analysis} {v w : ValueId} {n n' : NodeId}

/-- The search goes from a node to all that it adjoins, and to nothing else. -/
theorem mem_moves_iff {g : Pag} : (n, n') ∈ moves g ↔ g.Adjoins n n' := by
  simp only [moves, List.mem_flatMap, Array.mem_toList_iff, Pag.adjoins_iff]
  constructor
  · rintro ⟨⟨kind, src, dst⟩, he, hmem⟩
    refine ⟨kind, ?_⟩
    cases kind <;> simp at hmem
    all_goals
      refine ⟨by simp [EdgeKind.MovesUnchanged], ?_⟩
      rcases hmem with ⟨rfl, rfl⟩ | ⟨rfl, rfl⟩
      · exact Or.inl he
      · exact Or.inr he
  · rintro ⟨kind, hk, he⟩
    rcases he with he | he
    all_goals
      refine ⟨_, he, ?_⟩
      rcases hk with rfl | rfl | rfl <;> simp

theorem leads_moves_iff {g : Pag} : Reach.Leads (moves g) n n' ↔ g.Connected n n' := by
  have hrel : (fun x y => (x, y) ∈ moves g) = g.Adjoins := by
    funext x y
    exact propext mem_moves_iff
  rw [Reach.Leads, Pag.Connected, hrel]

theorem mem_relatedNodes :
    n ∈ a.relatedNodes v ↔ ∃ x ∈ a.pag.nodesOf v, a.pag.Connected x n := by
  rw [relatedNodes, Ascending.mem_ofList, Reach.mem_walk_iff_exists]
  simp only [leads_moves_iff]

/-- The values related are those with a node among the related ones. -/
theorem mem_relatedValues_iff :
    w ∈ a.relatedValues v ↔ ∃ y ∈ a.relatedNodes v, y ∈ a.pag.nodesOf w := by
  rw [relatedValues, Ascending.mem_ofList, List.mem_filterMap]
  refine exists_congr fun y => and_congr_right fun _ => ?_
  rw [Pag.mem_nodesOf]
  show _ ↔ (a.pag.node? y).map Node.entity = some (.value w)
  cases (a.pag.node? y).map Node.entity with
  | none => simp
  | some e => cases e <;> simp

theorem mem_relatedValues : w ∈ a.relatedValues v ↔
    ∃ x ∈ a.pag.nodesOf v, ∃ y ∈ a.pag.nodesOf w, a.pag.Connected x y := by
  rw [mem_relatedValues_iff]
  constructor
  · rintro ⟨y, hy, hw⟩
    obtain ⟨x, hx, hxy⟩ := mem_relatedNodes.1 hy
    exact ⟨x, hx, y, hw, hxy⟩
  · rintro ⟨x, hx, y, hw, hxy⟩
    exact ⟨y, mem_relatedNodes.2 ⟨x, hx, hxy⟩, hw⟩

theorem subset_relatedNodes : a.pag.nodesOf v ⊆ a.relatedNodes v :=
  fun n hn => mem_relatedNodes.2 ⟨n, hn, .refl⟩

theorem relatedNodes_eq_nil_iff : a.relatedNodes v = [] ↔ a.pag.nodesOf v = [] := by
  simp only [List.eq_nil_iff_forall_not_mem]
  constructor
  · intro h n hn
    exact h n (subset_relatedNodes hn)
  · intro h n hn
    obtain ⟨x, hx, -⟩ := mem_relatedNodes.1 hn
    exact h x hx

theorem relatedNodes_closed (hn : n ∈ a.relatedNodes v) (h : a.pag.Adjoins n n') :
    n' ∈ a.relatedNodes v := by
  obtain ⟨x, hx, hxn⟩ := mem_relatedNodes.1 hn
  exact mem_relatedNodes.2 ⟨x, hx, hxn.tail h⟩

theorem mem_relatedValues_comm : w ∈ a.relatedValues v ↔ v ∈ a.relatedValues w := by
  have hswap : ∀ {v w}, w ∈ a.relatedValues v → v ∈ a.relatedValues w := by
    intro v w h
    obtain ⟨x, hx, y, hy, hxy⟩ := mem_relatedValues.1 h
    exact mem_relatedValues.2 ⟨y, hy, x, hx, hxy.symm⟩
  exact ⟨hswap, hswap⟩

/-- Whatever the graph, the nodes related to a value are the connected components of its own nodes
under moves taken in either direction, each node listed once. So they contain the value's own
nodes, there are none if it has none, no move leads out of them, and a value is related to another
exactly if that one is related to it. -/
theorem relatedNodes_components (a : Analysis) :
    (∀ v n, n ∈ a.relatedNodes v ↔ ∃ x ∈ a.pag.nodesOf v, a.pag.Connected x n) ∧
    (∀ v, (a.relatedNodes v).Pairwise (· < ·) ∧ a.pag.nodesOf v ⊆ a.relatedNodes v ∧
      (a.relatedNodes v = [] ↔ a.pag.nodesOf v = [])) ∧
    (∀ v n n', n ∈ a.relatedNodes v → a.pag.Adjoins n n' → n' ∈ a.relatedNodes v) ∧
    (∀ v w, w ∈ a.relatedValues v ↔ ∃ y ∈ a.relatedNodes v, y ∈ a.pag.nodesOf w) ∧
    ∀ v w, w ∈ a.relatedValues v ↔ v ∈ a.relatedValues w := by
  refine ⟨fun v n => mem_relatedNodes, fun v => ⟨?_, subset_relatedNodes, relatedNodes_eq_nil_iff⟩,
    fun v n n' => relatedNodes_closed, fun v w => mem_relatedValues_iff,
    fun v w => mem_relatedValues_comm⟩
  rw [relatedNodes]
  exact Ascending.pairwise_ofList _

end Analysis

end PointsTo
