import PointsTo.Proofs.Builder.Steps
import PointsTo.Proofs.Confined.Contexts
import PointsTo.Proofs.Indices
import PointsTo.Proofs.Pag.Places
import PointsTo.Proofs.Program.Vocabulary

/-!
# What a builder can hold

A builder that has grown from a call graph `g` of a program is *confined* (`Builder.Confined`). Its
nodes stand for what the program names, for fields that it has, of nodes that are no fields, and for
functions that `bind` makes of functions. Its contexts are sequences of items that there are, its
methods are methods that the program names, and it has all of them once.

So a builder can only grow without end if its contexts or the functions that `bind` makes do, and
for both that takes objects without end.
-/

namespace PointsTo

/-- The statement binds a function, and assigns what that makes. -/
def Program.BindsAt (p : Program) (stmt : StmtId) : Prop :=
  ∃ i v, p.invokeOf? stmt = some i ∧ i.method.name = "bind" ∧
    (p.stmt? stmt).bind Stmt.defValue? = some v

theorem Program.not_bindsAt {p : Program} (h : ∀ stmt < p.stmts.size,
    (p.invokeOf? stmt).all (fun i => i.method.name != "bind") = true) (stmt : StmtId) :
    ¬p.BindsAt stmt := by
  rintro ⟨i, v, hi, hname, -⟩
  have hother := h stmt (Program.lt_of_invokeOf? hi)
  simp [hi, hname] at hother

/-- The entity is a function that the program refers to. -/
def Program.NamesFunction (p : Program) : Entity → Prop
  | .value v => ∃ m, p.value? v = some (.functionRef m)
  | _ => False

theorem Program.not_namesFunction {p : Program} {v : ValueId}
    (h : ∀ m, p.value? v ≠ some (.functionRef m)) : ¬p.NamesFunction (.value v) :=
  fun ⟨m, hm⟩ => h m hm

/-- The summary is made of what the program has. -/
structure Summary.Confined (p : Program) (g : CallGraph) (s : Summary) : Prop where
  edges : ∀ e ∈ s.edges, p.Names e.src ∧ p.Names e.dst ∧ e.stmt < p.stmts.size
  free : ∀ f ∈ s.free, ∃ v, Summarize.freeLocal? p v = some f
  staticCalls : ∀ site ∈ s.staticCalls, site ∈ g.sites
  dynamicCalls : ∀ site ∈ s.dynamicCalls, site ∈ g.dynSites
  unknownCalls : ∀ site ∈ s.unknownCalls, site ∈ g.dynSites
  returns : ∀ v ∈ s.returns, p.isLocal v = true

/-- A call graph that has grown from `g`. -/
structure CallGraph.GrownFrom (p : Program) (g g' : CallGraph) : Prop where
  consistent : g'.Consistent p
  method : ∀ {f m}, g'.methodOf? f = some m → p.NamesMethod g m
  sites : g'.sites = g.sites
  dynSites : g'.dynSites = g.dynSites
  label : ∀ {stmt}, g'.Labels stmt → g.Labels stmt ∨ stmt < p.stmts.size
  callee : ∀ site ∈ g.sites, site.callee < g'.nodes.size

/-! ## Graphs -/

namespace Pag

/-- The node is no field of an object. -/
def IsOwner (g : Pag) (n : NodeId) : Prop :=
  ∃ x, g.node? n = some x ∧ x.entity.isObjField = false

theorem IsOwner.mono {g g' : Pag} {n : NodeId} (h : g.IsOwner n) (hg : g.Extends g') :
    g'.IsOwner n := by
  obtain ⟨x, hx, he⟩ := h
  obtain ⟨x', hx', hgrow⟩ := hg.node hx
  exact ⟨x', hx', by rw [hgrow.entity]; exact he⟩

theorem IsOwner.lt {g : Pag} {n : NodeId} (h : g.IsOwner n) : n < g.nodes.size := by
  obtain ⟨x, hx, -⟩ := h
  exact node?_lt hx

/-- No entity has two nodes in a context, nodes are where they belong, edges join nodes and are
there once, calls that wait are calls of the program and wait at no fields of objects, and what is
shown on nodes are objects. -/
structure WellFormed (p : Program) (g : Pag) : Prop where
  unique : g.Unique
  inPlace : g.InPlace
  edge : ∀ {e}, e ∈ g.edges → e.src < g.nodes.size ∧ e.dst < g.nodes.size
  once : g.edges.toList.Nodup
  site : ∀ {n site}, site ∈ g.sitesOf n → p.HasSite site
  waits : ∀ {n site}, site ∈ g.sitesOf n → g.IsOwner n
  shown : ∀ {n o}, o ∈ g.ptsOf n → g.isObject o = true
  access : ∀ {r}, r ∈ g.baseRefs → p.Mentions r.1 ∧ p.Mentions r.2

variable {p : Program} {g g' : Pag}

theorem WellFormed.addNode (h : g.WellFormed p) {cid : ContextId}
    {e : Entity} (hb : g.Belongs cid e)
    (kind : NodeKind) : (g.addNode cid e kind).2.WellFormed p where
  unique := h.unique.addNode cid e kind
  inPlace := h.inPlace.addNode hb kind
  edge := by
    intro e' he'
    have hg := g.addNode_extends cid e kind
    rw [edges_addNode] at he'
    exact ⟨hg.lt (h.edge he').1, hg.lt (h.edge he').2⟩
  once := by
    rw [edges_addNode]
    exact h.once
  site := fun hs => h.site (mem_sitesOf_addNode.1 hs)
  waits := fun hs => (h.waits (mem_sitesOf_addNode.1 hs)).mono (g.addNode_extends cid e kind)
  shown := fun ho => (g.addNode_extends cid e kind).isObject (h.shown (mem_ptsOf_addNode.1 ho))
  access := fun hr => h.access (by rwa [baseRefs_addNode] at hr)

theorem WellFormed.addEdge (h : g.WellFormed p) (kind : EdgeKind) (src dst : NodeId) :
    (g.addEdge kind src dst).2.WellFormed p where
  unique := h.unique.of_extends (g.addEdge_extends kind src dst) (by rw [nodes_addEdge])
  inPlace := h.inPlace.of_extends (g.addEdge_extends kind src dst) (by rw [nodes_addEdge])
  edge := fun he => ends_addEdge (fun _ => h.edge) _ he
  once := nodup_edges_addEdge h.once
  site := fun hs => h.site (by simpa [sitesOf] using hs)
  waits := fun hs =>
    (h.waits (by simpa [sitesOf] using hs)).mono (g.addEdge_extends kind src dst)
  shown := fun ho =>
    (g.addEdge_extends kind src dst).isObject (h.shown (by simpa [ptsOf] using ho))
  access := fun hr => h.access (by rwa [baseRefs_addEdge] at hr)

theorem WellFormed.addSite (h : g.WellFormed p) {n : NodeId} (hn : g.IsOwner n) {site : SiteRef}
    (hsite : p.HasSite site) : (g.addSite n site).2.WellFormed p where
  unique := h.unique.of_extends (g.addSite_extends n site) (size_addSite ..)
  inPlace := h.inPlace.of_extends (g.addSite_extends n site) (size_addSite ..)
  edge := fun he => by
    rw [edges_addSite] at he
    rw [size_addSite]
    exact h.edge he
  once := by
    rw [edges_addSite]
    exact h.once
  site := fun hs => by
    rcases mem_sitesOf_addSite hs with hs | ⟨-, -, rfl⟩
    · exact h.site hs
    · exact hsite
  waits := fun hs => by
    refine IsOwner.mono ?_ (g.addSite_extends n site)
    rcases mem_sitesOf_addSite hs with hs | ⟨-, rfl, -⟩
    · exact h.waits hs
    · exact hn
  shown := fun ho => (g.addSite_extends n site).isObject (h.shown (mem_ptsOf_addSite.1 ho))
  access := fun hr => h.access (by rwa [baseRefs_addSite] at hr)

/-- Accesses are recorded beside nodes and edges. -/
theorem WellFormed.addBaseRef (h : g.WellFormed p) {base ref : ValueId} (hbase : p.Mentions base)
    (href : p.Mentions ref) : (g.addBaseRef base ref).WellFormed p where
  unique := h.unique.of_extends (g.addBaseRef_extends base ref) (by rw [nodes_addBaseRef])
  inPlace := h.inPlace.of_extends (g.addBaseRef_extends base ref) (by rw [nodes_addBaseRef])
  edge := by
    rw [g.edges_addBaseRef base ref, g.nodes_addBaseRef base ref]
    exact h.edge
  once := by
    rw [g.edges_addBaseRef base ref]
    exact h.once
  site := fun hs => by
    rw [sitesOf, node?_congr (g.nodes_addBaseRef base ref)] at hs
    exact h.site hs
  waits := fun hs => by
    rw [sitesOf, node?_congr (g.nodes_addBaseRef base ref)] at hs
    exact (h.waits hs).mono (g.addBaseRef_extends base ref)
  shown := fun ho => by
    rw [ptsOf, node?_congr (g.nodes_addBaseRef base ref)] at ho
    rw [isObject, node?_congr (g.nodes_addBaseRef base ref)]
    exact h.shown ho
  access := fun hr => by
    unfold Pag.addBaseRef at hr
    split at hr
    · exact h.access hr
    · rcases List.mem_append.1 hr with hr | hr
      · exact h.access hr
      · cases List.mem_singleton.1 hr
        exact ⟨hbase, href⟩

theorem WellFormed.addPts (h : g.WellFormed p) (n : NodeId) {objs : ObjSet}
    (hobjs : ∀ o ∈ objs, g.isObject o = true) : (g.addPts n objs).WellFormed p where
  unique := h.unique.of_extends (g.addPts_extends n objs) (size_addPts ..)
  inPlace := h.inPlace.of_extends (g.addPts_extends n objs) (size_addPts ..)
  edge := fun he => by
    rw [size_addPts]
    exact h.edge he
  once := h.once
  site := fun hs => h.site (mem_sitesOf_addPts.1 hs)
  waits := fun hs => (h.waits (mem_sitesOf_addPts.1 hs)).mono (g.addPts_extends n objs)
  shown := fun ho => by
    rcases mem_ptsOf_addPts.1 ho with ho | ⟨-, -, ho⟩
    · exact (g.addPts_extends n objs).isObject (h.shown ho)
    · exact (g.addPts_extends n objs).isObject (hobjs _ ho)
  access := h.access

end Pag

/-! ## Builders -/

namespace Builder

variable {p : Program} {g : CallGraph} {b b' b₁ b₂ b₃ : Builder}

/-- There is such a context. -/
def HasContext (b : Builder) (cid : ContextId) : Prop :=
  (b.contexts.context? cid).isSome = true

/-- There is such a context, or it is that of the element slots of containers, where there are only
fields of objects. -/
def HasPlace (b : Builder) (cid : ContextId) (e : Entity) : Prop :=
  b.HasContext cid ∨ cid = Context.container ∧ e.isObjField = true

/-- The method can be laid out in the context. -/
def HasTarget (b : Builder) (cid : ContextId) (f : FuncId) : Prop :=
  b.HasContext cid ∧ f < b.graph.nodes.size

/-- The items that contexts are made of. -/
def HasItem (g : CallGraph) (b : Builder) : ContextItem → Prop
  | .callSite site callee =>
    b.contexts.sensitivity = .callSite ∧ g.HasId site ∧ callee < b.graph.nodes.size
  | .object obj => b.contexts.sensitivity = .object ∧ b.pag.isObject obj = true
  | .function func => b.contexts.sensitivity = .function ∧ func < b.graph.nodes.size

/-- What nodes can stand for. -/
def HasEntity (p : Program) (b : Builder) : Entity → Prop
  | .objField obj key => p.HasKey key ∧ b.pag.IsOwner obj
  | .boundFunction stmt target => p.BindsAt stmt ∧ b.pag.isObject target = true
  | e => p.Names e

/-- What is said of the kind of a node. -/
structure HasKind (p : Program) (g : CallGraph) (b : Builder) (e : Entity) (kind : NodeKind) :
    Prop where
  key : ∀ {base key}, kind.reference? = some (base, key) → p.HasKey key
  object : kind.isObject = true → e.isObjField = false
  function : ∀ {fn}, kind.function? = some fn →
    p.NamesMethod g fn.method ∧ ∀ {f}, fn.func = some f → f < b.graph.nodes.size
  named : p.NamesFunction e → kind.function?.isSome = true
  index : ∀ i ∈ kind.indices, i.InRange p b.pag.nodes.size

/-- There can be such a node. -/
structure MayHaveNode (p : Program) (g : CallGraph) (b : Builder) (x : Node) : Prop where
  context : b.HasPlace x.cid x.entity
  entity : b.HasEntity p x.entity
  kind : b.HasKind p g x.entity x.kind

/-- The summary can be that of the method. -/
structure HasSummary (p : Program) (g : CallGraph) (b : Builder) (f : FuncId) (s : Summary) :
    Prop where
  confined : s.Confined p g
  placed : ∃ m, b.graph.methodOf? f = some m ∧ p.IsPlaced m

/-- The link is from a value of the program to a node. -/
def HasLink (p : Program) (b : Builder) (l : ValueId × EdgeKind × NodeId) : Prop :=
  p.Mentions l.1 ∧ l.2.2 < b.pag.nodes.size

/-- The builder is made of what the program and the call graph `g` have. -/
structure Confined (p : Program) (g : CallGraph) (b : Builder) : Prop where
  pag : b.pag.WellFormed p
  node : ∀ {n x}, b.pag.node? n = some x → b.MayHaveNode p g x
  contexts : b.contexts.Proper (b.HasItem g)
  graph : g.GrownFrom p b.graph
  summary : ∀ {f s}, (f, s) ∈ b.summaries → b.HasSummary p g f s
  built : ∀ {cid f}, (cid, f) ∈ b.built → b.HasTarget cid f
  pending : ∀ {f cid}, (f, cid) ∈ b.pending → b.HasTarget cid f
  link : ∀ {l}, l ∈ b.links → b.HasLink p l
  logged : ∀ {e}, e ∈ b.newEdges → e ∈ b.pag.edges
  loggedSites : ∀ {n site}, (n, site) ∈ b.newSites → site ∈ b.pag.sitesOf n

/-- The builder later on. What it logs is new. -/
structure LogsOnlyNew (b b' : Builder) : Prop where
  pag : b.pag.Extends b'.pag
  graph : b.graph.Grows b'.graph
  contexts : b.contexts.Extends b'.contexts
  newEdges : ∀ {e}, e ∈ b'.newEdges → e ∈ b.newEdges ∨ e ∉ b.pag.edges
  newSites : ∀ {n site}, (n, site) ∈ b'.newSites → (n, site) ∈ b.newSites ∨ site ∉ b.pag.sitesOf n
  built : ∀ {x}, x ∈ b.built → x ∈ b'.built

namespace LogsOnlyNew

theorem rfl : b.LogsOnlyNew b :=
  ⟨.rfl, .rfl, .rfl, Or.inl, Or.inl, fun h => h⟩

theorem trans (h : b₁.LogsOnlyNew b₂) (h' : b₂.LogsOnlyNew b₃) : b₁.LogsOnlyNew b₃ where
  pag := h.pag.trans h'.pag
  graph := h.graph.trans h'.graph
  contexts := h.contexts.trans h'.contexts
  newEdges := fun he => by
    rcases h'.newEdges he with he | he
    · exact h.newEdges he
    · exact Or.inr fun hold => he (h.pag.edge hold)
  newSites := fun hs => by
    rcases h'.newSites hs with hs | hs
    · exact h.newSites hs
    · exact Or.inr fun hold => hs (h.pag.site hold)
  built := fun hx => h'.built (h.built hx)

/-- Only nodes, methods and contexts were added. -/
theorem of_same (pag : b.pag.Extends b'.pag) (graph : b.graph.Grows b'.graph)
    (contexts : b.contexts.Extends b'.contexts) (newEdges : b'.newEdges = b.newEdges)
    (newSites : b'.newSites = b.newSites) (built : b'.built = b.built) : b.LogsOnlyNew b' where
  pag := pag
  graph := graph
  contexts := contexts
  newEdges := fun he => Or.inl (newEdges ▸ he)
  newSites := fun hs => Or.inl (newSites ▸ hs)
  built := fun hx => built ▸ hx

variable (h : b.LogsOnlyNew b')
include h

theorem hasContext {cid : ContextId} (hc : b.HasContext cid) : b'.HasContext cid := by
  obtain ⟨ctx, hctx⟩ := Option.isSome_iff_exists.1 hc
  exact Option.isSome_of_eq_some (h.contexts.context hctx)

theorem hasPlace {cid : ContextId} {e : Entity} (hc : b.HasPlace cid e) : b'.HasPlace cid e :=
  hc.imp_left h.hasContext

theorem func {f : FuncId} (hf : f < b.graph.nodes.size) : f < b'.graph.nodes.size :=
  Nat.lt_of_lt_of_le hf h.graph.size

theorem hasTarget {cid : ContextId} {f : FuncId} (ht : b.HasTarget cid f) : b'.HasTarget cid f :=
  ⟨h.hasContext ht.1, h.func ht.2⟩

theorem hasItem {x : ContextItem} (hx : b.HasItem g x) : b'.HasItem g x := by
  cases x with
  | callSite site callee => exact ⟨h.contexts.sensitivity.trans hx.1, hx.2.1, h.func hx.2.2⟩
  | object obj => exact ⟨h.contexts.sensitivity.trans hx.1, h.pag.isObject hx.2⟩
  | function func => exact ⟨h.contexts.sensitivity.trans hx.1, h.func hx.2⟩

theorem hasEntity {e : Entity} (he : b.HasEntity p e) : b'.HasEntity p e := by
  cases e with
  | objField obj key => exact ⟨he.1, he.2.mono h.pag⟩
  | boundFunction stmt target => exact ⟨he.1, h.pag.isObject he.2⟩
  | _ => exact he

theorem hasKind {e : Entity} {kind : NodeKind} (hk : b.HasKind p g e kind) :
    b'.HasKind p g e kind where
  key := hk.key
  object := hk.object
  function := fun hfn => ⟨(hk.function hfn).1, fun hf => h.func ((hk.function hfn).2 hf)⟩
  named := hk.named
  index := fun i hi => (hk.index i hi).mono h.pag.size

theorem admits {x : Node} (hx : b.MayHaveNode p g x) : b'.MayHaveNode p g x :=
  ⟨h.hasPlace hx.context, h.hasEntity hx.entity, h.hasKind hx.kind⟩

theorem hasSummary {f : FuncId} {s : Summary} (hs : b.HasSummary p g f s) :
    b'.HasSummary p g f s := by
  obtain ⟨m, hm, hplaced⟩ := hs.placed
  exact ⟨hs.confined, m, h.graph.method hm, hplaced⟩

theorem hasLink {l : ValueId × EdgeKind × NodeId} (hl : b.HasLink p l) : b'.HasLink p l :=
  ⟨hl.1, h.pag.lt hl.2⟩

end LogsOnlyNew

namespace Confined

/-- Growth keeps a builder confined if everything new is. -/
theorem grow (hb : b.Confined p g) (he : b.LogsOnlyNew b') (pag : b'.pag.WellFormed p)
    (node : ∀ {n x}, b'.pag.node? n = some x → n < b.pag.nodes.size ∨ b'.MayHaveNode p g x)
    (contexts : b'.contexts.Proper (b'.HasItem g)) (graph : g.GrownFrom p b'.graph)
    (summary : ∀ {f s}, (f, s) ∈ b'.summaries → (f, s) ∈ b.summaries ∨ b'.HasSummary p g f s)
    (built : ∀ {cid f}, (cid, f) ∈ b'.built → (cid, f) ∈ b.built ∨ b'.HasTarget cid f)
    (pending : ∀ {f cid}, (f, cid) ∈ b'.pending → (f, cid) ∈ b.pending ∨ b'.HasTarget cid f)
    (link : ∀ {l}, l ∈ b'.links → l ∈ b.links ∨ b'.HasLink p l)
    (logged : ∀ {e}, e ∈ b'.newEdges → e ∈ b.newEdges ∨ e ∈ b'.pag.edges)
    (loggedSites : ∀ {n site}, (n, site) ∈ b'.newSites →
      (n, site) ∈ b.newSites ∨ site ∈ b'.pag.sitesOf n) : b'.Confined p g where
  pag := pag
  node := fun {n x} hx => by
    rcases node hx with hn | hnew
    · obtain ⟨y, hy, hgrow⟩ := he.pag.back hn hx
      obtain ⟨hcontext, hentity, hkind⟩ := he.admits (hb.node hy)
      rw [← hgrow.cid, ← hgrow.entity] at hcontext
      rw [← hgrow.entity] at hentity
      rw [← hgrow.entity, ← hgrow.kind] at hkind
      exact ⟨hcontext, hentity, hkind⟩
    · exact hnew
  contexts := contexts
  graph := graph
  summary := fun hx => (summary hx).elim (fun h => he.hasSummary (hb.summary h)) id
  built := fun hx => (built hx).elim (fun h => he.hasTarget (hb.built h)) id
  pending := fun hx => (pending hx).elim (fun h => he.hasTarget (hb.pending h)) id
  link := fun hx => (link hx).elim (fun h => he.hasLink (hb.link h)) id
  logged := fun hx => (logged hx).elim (fun h => he.pag.edge (hb.logged h)) id
  loggedSites := fun hx => (loggedSites hx).elim (fun h => he.pag.site (hb.loggedSites h)) id

/-- Items stay items. -/
theorem properItems (hb : b.Confined p g) (he : b.LogsOnlyNew b') :
    b.contexts.Proper (b'.HasItem g) :=
  hb.contexts.mono he.hasItem

theorem hasContext_root (hb : b.Confined p g) : b.HasContext Context.root :=
  Option.isSome_of_eq_some hb.contexts.root

/-- Fields are in the context of all element slots, or in that of everything shared. -/
theorem hasPlace_fieldContext (hb : b.Confined p g) (obj : NodeId) (key : FieldKey) :
    b.HasPlace (b.pag.fieldContext obj) (.objField obj key) := by
  unfold Pag.fieldContext
  split
  · exact Or.inr ⟨rfl, rfl⟩
  · exact Or.inl hb.hasContext_root

theorem isOwner_of_isObject (hb : b.Confined p g) {n : NodeId} (h : b.pag.isObject n = true) :
    b.pag.IsOwner n := by
  obtain ⟨x, hx, hobject⟩ := Pag.isObject_iff.1 h
  exact ⟨x, hx, (hb.node hx).kind.object hobject⟩

/-- Nodes that are no fields of objects are in contexts that there are. -/
theorem hasContext_of_isOwner (hb : b.Confined p g) {n : NodeId} {x : Node}
    (h : b.pag.IsOwner n) (hx : b.pag.node? n = some x) : b.HasContext x.cid := by
  obtain ⟨y, hy, he⟩ := h
  rw [hx] at hy
  cases hy
  refine (hb.node hx).context.resolve_right fun hfield => ?_
  rw [he] at hfield
  exact absurd hfield.2 Bool.false_ne_true

/-- Objects are such nodes. -/
theorem hasContext_of_isObject (hb : b.Confined p g) {n : NodeId} {x : Node}
    (h : b.pag.isObject n = true) (hx : b.pag.node? n = some x) : b.HasContext x.cid :=
  hb.hasContext_of_isOwner (hb.isOwner_of_isObject h) hx

/-- The methods are numbered. -/
theorem func_of_methodOf? {f : FuncId} {m : MethodSig} (h : b.graph.methodOf? f = some m) :
    f < b.graph.nodes.size := by
  obtain ⟨x, hx, -⟩ := Option.map_eq_some_iff.1 h
  exact (Array.getElem?_eq_some_iff.1 hx).1

end Confined

/-- Nothing is there at the start. -/
theorem confined_ofGraph (hg : g.Consistent p) (htargets : g.HasTargets) (backing : Backing)
    (sensitivity : Sensitivity) (k : Nat) : (ofGraph g backing sensitivity k).Confined p g where
  pag := {
    unique := fun _ _ _ _ hx => by simp [ofGraph, Pag.node?] at hx
    inPlace := ⟨fun hx => by simp [ofGraph, Pag.node?] at hx,
      fun hx => by simp [ofGraph, Pag.node?] at hx⟩
    edge := fun he => by simp [ofGraph] at he
    once := List.nodup_nil
    site := fun hs => by simp [ofGraph, Pag.sitesOf, Pag.node?] at hs
    waits := fun hs => by simp [ofGraph, Pag.sitesOf, Pag.node?] at hs
    shown := fun ho => by simp [ofGraph, Pag.ptsOf, Pag.node?] at ho
    access := fun hr => by simp [ofGraph] at hr }
  node := fun hx => by simp [ofGraph, Pag.node?] at hx
  contexts := ContextTable.proper_new _ _ _
  graph := {
    consistent := hg
    method := fun hm => by
      obtain ⟨x, hx, rfl⟩ := Option.map_eq_some_iff.1 hm
      exact Or.inl ⟨x, Array.mem_of_getElem? hx, rfl⟩
    sites := rfl
    dynSites := rfl
    label := Or.inl
    callee := htargets.callee }
  summary := fun hx => by simp [ofGraph] at hx
  built := fun hx => by simp [ofGraph] at hx
  pending := fun hx => by simp [ofGraph] at hx
  link := fun hx => by simp [ofGraph] at hx
  logged := fun hx => by simp [ofGraph] at hx
  loggedSites := fun hx => by simp [ofGraph] at hx

/-! ## Requests -/

/-- The builder stays confined and grows. -/
structure KeepsConfined (p : Program) (g : CallGraph) (b b' : Builder) : Prop where
  confined : b.Confined p g → b'.Confined p g
  expands : b.LogsOnlyNew b'

instance : IsPreorder Builder (KeepsConfined p g) where
  refl _ := ⟨id, .rfl⟩
  trans _ _ _ h h' := ⟨fun hb => h'.confined (h.confined hb), h.expands.trans h'.expands⟩

end Builder

end PointsTo
