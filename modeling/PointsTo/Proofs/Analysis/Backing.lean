import PointsTo.Proofs.Lockstep.Answers

/-!
# The backing of sets

Sets of objects can be kept as sorted lists or as bit vectors. The analysis does not depend on it
(`backing_unobservable`): with either backing a run makes the same nodes and edges in the same
order, and ends the same way. All that the analysis reads of a set is whether it is empty, what it
has and in which order, and whether it has grown; and as sets are kept canonical, their members
decide that.
-/

namespace PointsTo

/-- All of a node but the backing of its set. -/
def Node.content (x : Node) : ContextId × Entity × NodeKind × List SiteRef × List NodeId :=
  (x.cid, x.entity, x.kind, x.sites, x.pts.toList)

namespace Analysis

/-- The analyses have the same results. Only the backing of their sets may differ. -/
structure Agrees (a a' : Analysis) : Prop where
  /-- The same nodes with the same objects, under the same numbers. -/
  nodes : a'.pag.nodes.map Node.content = a.pag.nodes.map Node.content
  edges : a'.pag.edges = a.pag.edges
  baseRefs : a'.pag.baseRefs = a.pag.baseRefs
  graph : a'.builder.graph = a.builder.graph
  contexts : a'.builder.contexts = a.builder.contexts
  unhandled : a'.builder.unhandled = a.builder.unhandled
  stats : a'.stats = a.stats
  pointsTo : ∀ v, (a'.pointsTo v).toList = (a.pointsTo v).toList

theorem Alike.agrees {cmp : Comparison} {a a' : Analysis} (h : a.Alike cmp a') (hs : cmp.strict) :
    a.Agrees a' where
  nodes := by
    have hcontent : ∀ {x y : Node}, x.Alike y → y.content = x.content := by
      intro x y hxy
      unfold Node.content
      rw [hxy.cid, hxy.entity, hxy.kind, hxy.sites, hxy.pts.toList]
    refine Array.ext_getElem? fun n => ?_
    rw [Array.getElem?_map, Array.getElem?_map]
    exact h.pag.map_node hcontent n
  edges := h.pag.edges
  baseRefs := h.pag.baseRefs
  graph := h.builder.graph.eq hs
  contexts := h.builder.contexts
  unhandled := h.builder.unhandled
  stats := h.stats hs
  pointsTo v := (h.pointsTo v).toList.symm

/-- A run with sets of the given backing. -/
def runWith (backing : Backing) (p : Program) (seed : Seed) (entries : List MethodSig) (c : Config)
    (fuel : Nat) (d : Disk) : Except Failure Unit × Analysis × Disk :=
  start { program := p, models := LibraryModel.standard, fuel } { c with backing }
    (ofGraph (seed.graph p entries) { c with backing }) d

/-- Runs with either backing succeed together or fail with the same error, write the same files, and
end in analyses that agree. -/
theorem backing_unobservable (p : Program) (seed : Seed) (entries : List MethodSig) (c : Config)
    (b b' : Backing) (fuel : Nat) (d : Disk) :
    (runWith b' p seed entries c fuel d).1 = (runWith b p seed entries c fuel d).1 ∧
      (runWith b' p seed entries c fuel d).2.2 = (runWith b p seed entries c fuel d).2.2 ∧
      (runWith b p seed entries c fuel d).2.1.Agrees (runWith b' p seed entries c fuel d).2.1 := by
  let cmp : Comparison := { strict := True, known := [] }
  let s : Setting := { program := p, models := LibraryModel.standard, fuel }
  have hs : s.Comparable cmp s.fuel := ⟨rfl, fun _ => rfl⟩
  have hgraph : (seed.graph p entries).Alike cmp (seed.graph p entries) :=
    ⟨rfl, rfl, rfl, rfl, List.nil_subset _, List.Subset.refl _, fun _ => rfl⟩
  have hstart : (ofGraph (seed.graph p entries) { c with backing := b }).Alike cmp
      (ofGraph (seed.graph p entries) { c with backing := b' }) := alike_ofGraph hgraph rfl rfl
  obtain ⟨houtcome, hdisk, h⟩ := start_alike hs trivial hstart { c with backing := b }
    { c with backing := b' } (runInvariant_ofGraph (seed.graph_consistent p entries) _) rfl rfl d
  exact ⟨houtcome, hdisk, h.agrees trivial⟩

end Analysis

end PointsTo
