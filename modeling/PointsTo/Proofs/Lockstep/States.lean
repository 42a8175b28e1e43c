import PointsTo.Analysis.Basic
import PointsTo.Proofs.CallGraph.Growth
import PointsTo.Proofs.Pag.Growth
import PointsTo.Proofs.Reach
import PointsTo.Proofs.Sets.Canonical
import PointsTo.Proofs.Sets.Facts

/-!
# States alike

Two analyses of one program are *alike* if they have the same nodes, edges, calls and queues, and
sets with the same members at every place. How the sets are stored is left open, and so are, unless
the comparison asks for them, the edges of the call graph: the second one may have more of them.

Whatever is read from a graph is read off its nodes and edges, so it is the same for graphs alike;
and what is added to both keeps them alike.
-/

namespace PointsTo

/-- How closely two runs are compared. -/
structure Comparison where
  /-- The call graphs have the same edges, and loops the same bounds. -/
  strict : Prop
  /-- Links that both call graphs have. -/
  known : List (FuncId × FuncId)
  /-- The call graphs have the same edges, whatever the bounds of loops. -/
  sameEdges : Prop := strict
  sameEdges_of_strict : strict → sameEdges := by exact id

/-! ## Facts -/

namespace DiffStore

structure Alike (s s' : DiffStore) : Prop where
  fresh : ∀ key, (s.freshOf key).Same (s'.freshOf key)
  propagated : ∀ key, (s.propagatedOf key).Same (s'.propagatedOf key)

/-- The answers are the same, and the stores alike. -/
structure AnswersAlike (r r' : Bool × DiffStore) : Prop where
  answer : r'.1 = r.1
  store : r.2.Alike r'.2

theorem alike_new (b b' : Backing) : Alike { backing := b } { backing := b' } where
  fresh key := by simpa [freshOf, fresh?, emptySet] using ObjSet.same_empty b b'
  propagated key := by simpa [propagatedOf, propagated?, emptySet] using ObjSet.same_empty b b'

namespace Alike

variable {s s' : DiffStore} {facts facts' : ObjSet} {key : Nat}

theorem hasFresh (h : s.Alike s') (key : Nat) : s'.hasFresh key = s.hasFresh key := by
  unfold DiffStore.hasFresh
  rw [(h.fresh key).isEmpty]

theorem setFresh (h : s.Alike s') (hf : facts.Same facts') (key : Nat) :
    (s.setFresh key facts).Alike (s'.setFresh key facts') where
  fresh other := by
    rw [freshOf_setFresh, freshOf_setFresh]
    split
    · exact hf
    · exact h.fresh other
  propagated := h.propagated

theorem setPropagated (h : s.Alike s') (hf : facts.Same facts') (key : Nat) :
    (s.setPropagated key facts).Alike (s'.setPropagated key facts') where
  fresh := h.fresh
  propagated other := by
    rw [propagatedOf_setPropagated, propagatedOf_setPropagated]
    split
    · exact hf
    · exact h.propagated other

theorem unchanged (h : s.Alike s') (b : Bool) : AnswersAlike (b, s) (b, s') :=
  ⟨rfl, h⟩

theorem replaceFresh (h : s.Alike s') {r r' : Bool × ObjSet} (ha : r.1 = r'.1)
    (hf : r.2.Same r'.2) (key : Nat) :
    AnswersAlike (s.replaceFresh key r) (s'.replaceFresh key r') :=
  ⟨ha.symm, h.setFresh hf key⟩

theorem add (h : s.Alike s') (key elem : Nat) :
    AnswersAlike (s.add key elem) (s'.add key elem) := by
  unfold DiffStore.add
  rw [(h.propagated key).contains]
  split
  · exact h.unchanged false
  · exact h.replaceFresh ((h.fresh key).insert_fst elem) ((h.fresh key).insert elem) key

theorem reseed (h : s.Alike s') (key : Nat) : AnswersAlike (s.reseed key) (s'.reseed key) := by
  unfold DiffStore.reseed
  rw [(h.propagated key).isEmpty]
  split
  · exact h.unchanged false
  · exact ⟨rfl, h.setFresh ((h.fresh key).union (h.propagated key)) key⟩

/-- It makes no difference whether there is an entry without facts, or none. -/
theorem unpropagated_canonical (h : facts.Canonical) (hp : (s.propagatedOf key).Canonical) :
    (s.unpropagated key facts).Canonical ∧
      ∀ o, o ∈ s.unpropagated key facts ↔ o ∈ facts ∧ o ∉ s.propagatedOf key := by
  unfold unpropagated propagatedOf at *
  cases hk : s.propagated? key with
  | none => exact ⟨h, fun o => by simp [emptySet]⟩
  | some known =>
    rw [hk] at hp
    exact ⟨h.subtract hp, fun o => h.mem_subtract hp⟩

theorem unpropagated (h : s.Alike s') (hf : facts.Same facts') (key : Nat) :
    (s.unpropagated key facts).Same (s'.unpropagated key facts') := by
  obtain ⟨hc, hm⟩ := unpropagated_canonical hf.left (h.propagated key).left
  obtain ⟨hc', hm'⟩ := unpropagated_canonical hf.right (h.propagated key).right
  exact ⟨hc, hc', fun o => by rw [hm, hm', hf.mem, (h.propagated key).mem]⟩

theorem addAll (h : s.Alike s') (hf : facts.Same facts') (dst : Nat) :
    AnswersAlike (s.addAll dst facts) (s'.addAll dst facts') := by
  have hin := h.unpropagated hf dst
  unfold DiffStore.addAll
  dsimp only
  rw [hin.isEmpty]
  split
  · exact h.unchanged false
  · exact h.replaceFresh ((h.fresh dst).union_fst hin) ((h.fresh dst).union hin) dst

theorem addKnown (h : s.Alike s') (dst src : Nat) :
    AnswersAlike (s.addKnown dst src) (s'.addKnown dst src) := by
  unfold DiffStore.addKnown
  split
  · exact h.unchanged false
  · exact h.addAll (((ObjSet.same_empty _ _).union (h.fresh src)).union (h.propagated src)) dst

theorem flush (h : s.Alike s') (key : Nat) : (s.flush key).Alike (s'.flush key) := by
  unfold DiffStore.flush
  rw [(h.fresh key).isEmpty]
  split
  · exact h
  · refine (h.setPropagated ?_ key).setFresh (ObjSet.same_empty _ _) key
    exact (h.propagated key).union (h.fresh key)

end Alike

end DiffStore

/-! ## Pointer assignment graphs -/

structure Node.Alike (x y : Node) : Prop where
  cid : y.cid = x.cid
  entity : y.entity = x.entity
  kind : y.kind = x.kind
  sites : y.sites = x.sites
  pts : x.pts.Same y.pts

namespace Pag

/-- The same nodes, with sets of the same members, and the same edges. -/
structure Alike (g g' : Pag) : Prop where
  size : g'.nodes.size = g.nodes.size
  node : ∀ {n x y}, g.node? n = some x → g'.node? n = some y → x.Alike y
  edges : g'.edges = g.edges
  baseRefs : g'.baseRefs = g.baseRefs

theorem alike_new (b b' : Backing) : Alike { backing := b } { backing := b' } :=
  ⟨rfl, fun hx => by simp [node?] at hx, rfl, rfl⟩

namespace Alike

variable {g g' : Pag} {γ : Type}

/-! ### Reading -/

theorem cases (h : g.Alike g') (n : NodeId) :
    (∃ x y, g.node? n = some x ∧ g'.node? n = some y ∧ x.Alike y) ∨
      g.node? n = none ∧ g'.node? n = none := by
  by_cases hn : n < g.nodes.size
  · obtain ⟨x, hx⟩ := exists_node? hn
    obtain ⟨y, hy⟩ := exists_node? (h.size ▸ hn)
    exact Or.inl ⟨x, y, hx, hy, h.node hx hy⟩
  · have hn' : ¬n < g'.nodes.size := by rwa [h.size]
    exact Or.inr ⟨Array.getElem?_eq_none (Nat.le_of_not_lt hn),
      Array.getElem?_eq_none (Nat.le_of_not_lt hn')⟩

/-- What does not depend on how sets are stored is the same. -/
theorem map_node (h : g.Alike g') {read : Node → γ} (hread : ∀ {x y}, x.Alike y → read y = read x)
    (n : NodeId) : (g'.node? n).map read = (g.node? n).map read := by
  rcases h.cases n with ⟨x, y, hx, hy, hxy⟩ | ⟨hx, hy⟩
  · rw [hx, hy, Option.map_some, Option.map_some, hread hxy]
  · rw [hx, hy]

theorem kind (h : g.Alike g') (n : NodeId) :
    (g'.node? n).map Node.kind = (g.node? n).map Node.kind :=
  h.map_node Node.Alike.kind n

theorem entity (h : g.Alike g') (n : NodeId) :
    (g'.node? n).map Node.entity = (g.node? n).map Node.entity :=
  h.map_node Node.Alike.entity n

theorem cid (h : g.Alike g') (n : NodeId) :
    (g'.node? n).map Node.cid = (g.node? n).map Node.cid :=
  h.map_node Node.Alike.cid n

theorem sitesOf (h : g.Alike g') (n : NodeId) : g'.sitesOf n = g.sitesOf n := by
  unfold Pag.sitesOf
  rw [h.map_node Node.Alike.sites n]

theorem ptsOf (h : g.Alike g') (n : NodeId) : g'.ptsOf n = g.ptsOf n := by
  unfold Pag.ptsOf
  rw [h.map_node (fun hxy => hxy.pts.toList.symm) n]

theorem bind_kind (h : g.Alike g') (n : NodeId) (f : NodeKind → Option γ) :
    ((g'.node? n).bind fun node => f node.kind) = (g.node? n).bind fun node => f node.kind := by
  have heq : ∀ o : Option Node, (o.bind fun node => f node.kind) = (o.map Node.kind).bind f := by
    intro o
    cases o <;> rfl
  rw [heq, heq, h.kind]

theorem function? (h : g.Alike g') (n : NodeId) : g'.function? n = g.function? n :=
  h.bind_kind n NodeKind.function?

theorem isContainer (h : g.Alike g') (obj : NodeId) : g'.isContainer obj = g.isContainer obj := by
  unfold Pag.isContainer
  rw [h.kind]

theorem fieldContext (h : g.Alike g') (obj : NodeId) :
    g'.fieldContext obj = g.fieldContext obj := by
  unfold Pag.fieldContext
  rw [h.isContainer]

theorem any_node (h : g.Alike g') {test : Node → Bool}
    (htest : ∀ {x y}, x.Alike y → test y = test x)
    (n : NodeId) : (g'.node? n).any test = (g.node? n).any test := by
  rcases h.cases n with ⟨x, y, hx, hy, hxy⟩ | ⟨hx, hy⟩
  · rw [hx, hy, Option.any_some, Option.any_some, htest hxy]
  · rw [hx, hy]

theorem isObject (h : g.Alike g') (n : NodeId) : g'.isObject n = g.isObject n :=
  h.any_node (fun hxy => by rw [hxy.kind]) n

theorem nodesWhere (h : g.Alike g') {test : NodeId → Node → Bool}
    (htest : ∀ n {x y}, x.Alike y → test n y = test n x) :
    g'.nodesWhere test = g.nodesWhere test := by
  unfold Pag.nodesWhere
  rw [h.size]
  exact List.filter_congr fun n _ => h.any_node (htest n) n

theorem nodesOf (h : g.Alike g') (v : ValueId) : g'.nodesOf v = g.nodesOf v :=
  h.nodesWhere fun _ _ _ hxy => by rw [hxy.entity]

theorem refsOf (h : g.Alike g') (b : NodeId) : g'.refsOf b = g.refsOf b :=
  h.nodesWhere fun _ _ _ hxy => by rw [hxy.entity, hxy.kind]

theorem find? (h : g.Alike g') (cid : ContextId) (e : Entity) : g'.find? cid e = g.find? cid e := by
  have same : ∀ {n x y}, g.node? n = some x → g'.node? n = some y →
      (y.cid = cid ∧ y.entity = e ↔ x.cid = cid ∧ x.entity = e) := fun hx hy => by
    rw [(h.node hx hy).cid, (h.node hx hy).entity]
  refine Option.ext fun n => ?_
  rw [find?_eq_some_iff, find?_eq_some_iff]
  refine and_congr ?_ (forall₂_congr fun m _ => ?_)
  · rcases h.cases n with ⟨x, y, hx, hy, -⟩ | ⟨hx, hy⟩
    · simp only [hx, hy, Option.some.injEq, exists_eq_left', same hx hy]
    · simp [hx, hy]
  · rcases h.cases m with ⟨x, y, hx, hy, -⟩ | ⟨hx, hy⟩
    · simp only [hx, hy, Option.some.injEq, forall_eq', same hx hy]
    · simp [hx, hy]

theorem outEdges (h : g.Alike g') (kind : EdgeKind) (n : NodeId) :
    g'.outEdges kind n = g.outEdges kind n := by
  unfold Pag.outEdges
  rw [h.edges]

theorem inEdges (h : g.Alike g') (kind : EdgeKind) (n : NodeId) :
    g'.inEdges kind n = g.inEdges kind n := by
  unfold Pag.inEdges
  rw [h.edges]

theorem edgeCount (h : g.Alike g') (kind : EdgeKind) : g'.edgeCount kind = g.edgeCount kind := by
  unfold Pag.edgeCount
  rw [h.edges]

/-! ### Adding -/

theorem addNode (h : g.Alike g') (cid : ContextId) (e : Entity) (kind : NodeKind) :
    (g'.addNode cid e kind).1 = (g.addNode cid e kind).1 ∧
      (g.addNode cid e kind).2.Alike (g'.addNode cid e kind).2 := by
  unfold Pag.addNode
  rw [h.find?]
  split
  · exact ⟨rfl, h⟩
  · refine ⟨by rw [h.size], by simp [h.size], fun {n x y} hx hy => ?_, h.edges, h.baseRefs⟩
    simp only [node?, Array.getElem?_push] at hx hy
    rw [h.size] at hy
    split at hx
    · rename_i hn
      rw [if_pos hn] at hy
      cases hx
      cases hy
      exact ⟨rfl, rfl, rfl, rfl, ObjSet.same_empty _ _⟩
    · rename_i hn
      rw [if_neg hn] at hy
      exact h.node hx hy

/-- One node is changed in both. -/
theorem modify (h : g.Alike g') (n : NodeId) {f f' : Node → Node}
    (hf : ∀ {x y}, x.Alike y → (f x).Alike (f' y)) :
    Alike { g with nodes := g.nodes.modify n f } { g' with nodes := g'.nodes.modify n f' } := by
  refine ⟨by simp [h.size], fun {m x y} hx hy => ?_, h.edges, h.baseRefs⟩
  rw [node?_modify] at hx hy
  split at hx
  · rename_i hnm
    rw [if_pos hnm] at hy
    obtain ⟨x₀, hx₀, rfl⟩ := Option.map_eq_some_iff.1 hx
    obtain ⟨y₀, hy₀, rfl⟩ := Option.map_eq_some_iff.1 hy
    exact hf (h.node hx₀ hy₀)
  · rename_i hnm
    rw [if_neg hnm] at hy
    exact h.node hx hy

theorem addPts (h : g.Alike g') (n : NodeId) {objs objs' : ObjSet} (ho : objs.Same objs') :
    (g.addPts n objs).Alike (g'.addPts n objs') :=
  h.modify n fun hxy => ⟨hxy.cid, hxy.entity, hxy.kind, hxy.sites, hxy.pts.union ho⟩

theorem addSite (h : g.Alike g') (n : NodeId) (site : SiteRef) :
    (g'.addSite n site).1 = (g.addSite n site).1 ∧
      (g.addSite n site).2.Alike (g'.addSite n site).2 := by
  unfold Pag.addSite
  rw [h.size, h.sitesOf]
  split
  · refine ⟨rfl, h.modify n fun hxy => ⟨hxy.cid, hxy.entity, hxy.kind, ?_, hxy.pts⟩⟩
    rw [hxy.sites]
  · exact ⟨rfl, h⟩

theorem addEdge (h : g.Alike g') (kind : EdgeKind) (src dst : NodeId) :
    (g'.addEdge kind src dst).1 = (g.addEdge kind src dst).1 ∧
      (g.addEdge kind src dst).2.Alike (g'.addEdge kind src dst).2 := by
  have hhas : g'.hasEdge kind src dst = g.hasEdge kind src dst := by
    unfold Pag.hasEdge
    rw [h.edges]
  unfold Pag.addEdge
  rw [h.size, hhas]
  split
  · exact ⟨rfl, h.size, h.node, by rw [h.edges], h.baseRefs⟩
  · exact ⟨rfl, h⟩

theorem addBaseRef (h : g.Alike g') (base ref : ValueId) :
    (g.addBaseRef base ref).Alike (g'.addBaseRef base ref) := by
  unfold Pag.addBaseRef
  rw [h.baseRefs]
  split
  · exact h
  · exact { h with baseRefs := rfl }

theorem addBaseRefs (h : g.Alike g') (refs : List ((ValueId × FieldKey) × ValueId)) :
    (refs.foldl (fun g r => g.addBaseRef r.1.1 r.2) g).Alike
      (refs.foldl (fun g r => g.addBaseRef r.1.1 r.2) g') := by
  induction refs generalizing g g' with
  | nil => exact h
  | cons r refs ih => exact ih (h.addBaseRef r.1.1 r.2)

end Alike

end Pag

/-! ## Call graphs -/

namespace CallGraph

/-- The same nodes and call sites. The second graph has all links of the first, and the same edges
if the comparison asks for that. -/
structure Alike (cmp : Comparison) (g g' : CallGraph) : Prop where
  nodes : g'.nodes = g.nodes
  sites : g'.sites = g.sites
  dynSites : g'.dynSites = g.dynSites
  entries : g'.entries = g.entries
  known : cmp.known ⊆ g.links
  links : g.links ⊆ g'.links
  edges : cmp.sameEdges → g'.edges = g.edges

namespace Alike

variable {cmp : Comparison} {g g' : CallGraph}

theorem methodOf? (h : g.Alike cmp g') (f : FuncId) : g'.methodOf? f = g.methodOf? f := by
  unfold CallGraph.methodOf? node?
  rw [h.nodes]

theorem sitesAt (h : g.Alike cmp g') (stmt : StmtId) : g'.sitesAt stmt = g.sitesAt stmt := by
  unfold CallGraph.sitesAt
  rw [h.sites]

theorem dynSiteAt? (h : g.Alike cmp g') (stmt : StmtId) :
    g'.dynSiteAt? stmt = g.dynSiteAt? stmt := by
  unfold CallGraph.dynSiteAt?
  rw [h.dynSites]

theorem addNode (h : g.Alike cmp g') (m : MethodSig) (kind : FuncKind) (isSdk : Bool) :
    (g'.addNode m kind isSdk).1 = (g.addNode m kind isSdk).1 ∧
      (g.addNode m kind isSdk).2.Alike cmp (g'.addNode m kind isSdk).2 := by
  unfold CallGraph.addNode funcId?
  rw [h.nodes]
  split
  · exact ⟨.refl _, h⟩
  · exact ⟨.refl _, { h with nodes := .refl _ }⟩

theorem nodeFor (h : g.Alike cmp g') (p : Program) (m : MethodSig) (missing : FuncKind) :
    (g'.nodeFor p m missing).1 = (g.nodeFor p m missing).1 ∧
      (g.nodeFor p m missing).2.Alike cmp (g'.nodeFor p m missing).2 := by
  unfold CallGraph.nodeFor
  split
  · exact h.addNode ..
  · exact h.addNode ..

/-- Whether the call is new may differ. -/
theorem addCall (h : g.Alike cmp g') (src dst : FuncId) (stmt : StmtId) (kind : CallKind) :
    (cmp.sameEdges → (g'.addCall src dst stmt kind).1 = (g.addCall src dst stmt kind).1) ∧
      (g.addCall src dst stmt kind).2.Alike cmp (g'.addCall src dst stmt kind).2 := by
  have same : cmp.sameEdges → g'.edges = g.edges → (g'.addCall src dst stmt kind).1 =
      (g.addCall src dst stmt kind).1 ∧
      (g'.addCall src dst stmt kind).2.edges = (g.addCall src dst stmt kind).2.edges := by
    intro _ he
    unfold CallGraph.addCall
    rw [he]
    split <;> exact ⟨.refl _, .refl _⟩
  refine ⟨fun hs => (same hs (h.edges hs)).1, ?_, ?_, ?_, ?_, ?_, ?_,
    fun hs => (same hs (h.edges hs)).2⟩
  · rw [nodes_addCall, nodes_addCall, h.nodes]
  · rw [sites_addCall, sites_addCall, h.sites]
  · exact ((g'.addCall_grows src dst stmt kind).dynSites.trans h.dynSites).trans
      (g.addCall_grows src dst stmt kind).dynSites.symm
  · unfold CallGraph.addCall
    split <;> split <;> exact h.entries
  · exact fun l hl => (g.addCall_grows src dst stmt kind).links (h.known hl)
  · intro l hl
    rw [mem_links_addCall] at hl ⊢
    exact hl.imp_left fun hl => h.links hl

/-! ### What can be reached -/

theorem reachable (h : g.Alike cmp g') {f f' : FuncId} (hr : g.reachable f f' = true) :
    g'.reachable f f' = true :=
  reachable_mono (Nat.le_of_eq (by rw [h.nodes])) h.links hr

theorem reachable_eq (h : g.Alike cmp g') (hs : cmp.sameEdges) (f f' : FuncId) :
    g'.reachable f f' = g.reachable f f' := by
  unfold CallGraph.reachable knows CallGraph.links
  rw [h.nodes, h.edges hs]

/-- Between methods with nodes, whatever the known links lead to is reached. -/
theorem reachable_of_known (h : g.Alike cmp g') {f f' : FuncId} {m m' : MethodSig}
    (hf : g'.methodOf? f = some m) (hf' : g'.methodOf? f' = some m')
    (hleads : Reach.Leads cmp.known f f') : g.reachable f f' = true := by
  have hknows : ∀ {f m}, g'.methodOf? f = some m → g.knows f = true := by
    intro f m hm
    rw [h.methodOf?] at hm
    obtain ⟨node, hnode, -⟩ := Option.map_eq_some_iff.1 hm
    exact knows_iff.2 (Or.inl (Array.getElem?_eq_some_iff.1 hnode).1)
  exact reachable_iff.2 ⟨hknows hf, hknows hf', hleads.mono h.known⟩

end Alike

end CallGraph

/-! ## Builders and analyses -/

/-- Nothing differs but the backing of sets, and what the comparison of call graphs leaves open. -/
structure Builder.Alike (cmp : Comparison) (b b' : Builder) : Prop where
  pag : b.pag.Alike b'.pag
  graph : b.graph.Alike cmp b'.graph
  contexts : b'.contexts = b.contexts
  summaries : b'.summaries = b.summaries
  built : b'.built = b.built
  pending : b'.pending = b.pending
  links : b'.links = b.links
  singletons : b'.singletons = b.singletons
  unhandled : b'.unhandled = b.unhandled
  newEdges : b'.newEdges = b.newEdges
  newSites : b'.newSites = b.newSites

theorem Builder.Alike.summary? {cmp : Comparison} {b b' : Builder} (h : b.Alike cmp b')
    (f : FuncId) : b'.summary? f = b.summary? f := by
  unfold Builder.summary?
  rw [h.summaries]

/-- The same for analyses. The number of rounds is always the same. -/
structure Analysis.Alike (cmp : Comparison) (a a' : Analysis) : Prop where
  builder : a.builder.Alike cmp a'.builder
  facts : a.facts.Alike a'.facts
  queue : a'.queue = a.queue
  arrivals : a'.arrivals = a.arrivals
  iterations : a'.stats.iterations = a.stats.iterations
  stats : cmp.strict → a'.stats = a.stats

theorem Analysis.Alike.pag {cmp : Comparison} {a a' : Analysis} (h : a.Alike cmp a') :
    a.pag.Alike a'.pag :=
  h.builder.pag

end PointsTo
