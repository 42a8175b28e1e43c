import Mathlib.Logic.Relation
import PointsTo.Builder.Summarize
import PointsTo.Proofs.CallGraph.Growth
import PointsTo.Proofs.Pag.Growth

/-!
# What a builder can do

However much a request makes the builder do, it consists of the few steps of `Builder.Step`: a node,
an edge, a waiting call, a method or a call in the call graph, a recorded access, a summary, a link,
or a change of what only the builder itself reads. `Builder.Steps` is any number of them.

Two things are derived from the steps, once and for all. What is there stays, and what is new is
logged (`Builder.Grows`). And the builder stays *sound*: edges join nodes that exist, what an
`address` edge starts from is an object, and every node has a kind that fits what it stands for.
-/

namespace PointsTo

/-- Entities whose nodes are objects. -/
def Entity.IsObject (p : Program) : Entity → Prop
  | .value v => (p.value? v).any Value.isAllocation = true
  | .globalThis | .sdkReturn _ | .boundFunction .. => True
  | .modelSlot owner _ => owner = "container"
  | .staticField _ | .objField .. | .exported .. => False

/-- Entities whose nodes are made on request. The nodes of the others are made by the solver and by
the library models, which tell their kind. -/
def Entity.IsPlain : Entity → Prop
  | .boundFunction .. | .objField .. => False
  | .modelSlot owner _ => owner ≠ "container"
  | _ => True

/-- The ends of a move have nodes on request, and what it takes as an object is one. -/
structure SummaryEdge.Sound (p : Program) (e : SummaryEdge) : Prop where
  src : e.src.IsPlain
  dst : e.dst.IsPlain
  object : e.kind = .address → e.src.IsObject p

/-- The moves of the summary are sound, and of the calls of the method that wait for a receiver none
is left out. -/
structure Summary.Sound (p : Program) (g : CallGraph) (f : FuncId) (s : Summary) : Prop where
  edges : ∀ e ∈ s.edges, e.Sound p
  calls : ∃ m, g.methodOf? f = some m ∧ ∀ decl, p.method? m = some decl → ∀ stmt ∈ decl.stmts,
    ∀ i, p.invokeOf? stmt = some i → i.kind ≠ .named → ∀ site, g.dynSiteAt? stmt = some site →
      site ∈ s.dynamicCalls ∨ site ∈ s.unknownCalls

theorem Summary.Sound.mono {p : Program} {g g' : CallGraph} {f : FuncId}
    {s : Summary} (h : s.Sound p g f) (hg : g.Grows g') : s.Sound p g' f where
  edges := h.edges
  calls := by
    obtain ⟨m, hm, hcalls⟩ := h.calls
    refine ⟨m, hg.method hm, ?_⟩
    unfold CallGraph.dynSiteAt?
    rw [hg.dynSites]
    exact hcalls

namespace Builder

theorem mem_of_summary? {b : Builder} {f : FuncId} {s : Summary} (h : b.summary? f = some s) :
    (f, s) ∈ b.summaries := by
  obtain ⟨l₁, l₂, hl, -⟩ := List.lookup_eq_some_iff.1 h
  simp [hl]

/-- The kind fits the entity of a node. -/
structure Fits (p : Program) (b : Builder) (e : Entity) (kind : NodeKind) : Prop where
  object : e.IsObject p → kind.isObject = true
  /-- An access is read through a node that is no field of an object itself. -/
  base : ∀ {n key}, kind.reference? = some (some n, key) → e.isObjField = false →
    ∃ node, b.pag.node? n = some node ∧ node.entity.isObjField = false
  func : ∀ {fn f}, kind = .function fn → fn.func = some f → b.graph.methodOf? f = some fn.method
  /-- What `bind` makes is a function. -/
  bound : ∀ {stmt n}, e = .boundFunction stmt n → ∃ fn, kind = .function fn

/-- One step of a builder. -/
inductive Step (p : Program) (b : Builder) : Builder → Prop where
  | node (cid : ContextId) (e : Entity) (kind : NodeKind) (fits : b.Fits p e kind) :
    Step p b { b with pag := (b.pag.addNode cid e kind).2 }
  | edge (kind : EdgeKind) (src dst : NodeId)
      (object : kind = .address → b.pag.isObject src = true) :
    Step p b ((Build.addEdge kind src dst).run b).2
  | site (n : NodeId) (site : SiteRef) : Step p b ((Build.addSite n site).run b).2
  | func (m : MethodSig) (missing : FuncKind) : Step p b ((Build.funcOf p m missing).run b).2
  | call (src dst : FuncId) (stmt : StmtId) (kind : CallKind) :
    Step p b ((Build.addCall src dst stmt kind).run b).2
  | access (base ref : ValueId) : Step p b { b with pag := b.pag.addBaseRef base ref }
  | summary (f : FuncId) (s : Summary) (sound : s.Sound p b.graph f) :
    Step p b { b with summaries := b.summaries ++ [(f, s)] }
  | link (v : ValueId) (kind : EdgeKind) (target : NodeId) (copies : kind ≠ .address) :
    Step p b { b with links := b.links ++ [(v, kind, target)] }
  /-- What the builder keeps for itself. -/
  | note (contexts : ContextTable) (pending : List (FuncId × ContextId))
      (singletons : List (FuncId × Bool)) (unhandled : List MethodSig) :
    Step p b { b with contexts, pending, singletons, unhandled }

/-- Any number of steps. -/
def Steps (p : Program) : Builder → Builder → Prop :=
  Relation.ReflTransGen (Step p)

instance (p : Program) : IsPreorder Builder (Steps p) :=
  inferInstanceAs (IsPreorder Builder (Relation.ReflTransGen (Step p)))

/-- What is there stays, and what is new is logged. -/
structure Grows (b b' : Builder) : Prop where
  pag : b.pag.Extends b'.pag
  pts : ∀ {n o}, o ∈ b'.pag.ptsOf n → o ∈ b.pag.ptsOf n
  edges : ∀ {e}, e ∈ b'.pag.edges → e ∈ b.pag.edges ∨ e ∈ b'.newEdges
  newEdges : ∀ {e}, e ∈ b.newEdges → e ∈ b'.newEdges
  sites : ∀ {n site}, site ∈ b'.pag.sitesOf n → site ∈ b.pag.sitesOf n ∨ (n, site) ∈ b'.newSites
  newSites : ∀ {s}, s ∈ b.newSites → s ∈ b'.newSites
  graph : b.graph.Grows b'.graph
  summary : ∀ {f s}, b.summary? f = some s → b'.summary? f = some s

/-- What holds throughout. -/
structure Sound (p : Program) (b : Builder) : Prop where
  edge : ∀ {e}, e ∈ b.pag.edges → e.src < b.pag.nodes.size ∧ e.dst < b.pag.nodes.size
  address : ∀ {e}, e ∈ b.pag.edges → e.kind = .address → b.pag.isObject e.src = true
  logged : ∀ {e}, e ∈ b.newEdges → e ∈ b.pag.edges
  fits : ∀ {n node}, b.pag.node? n = some node → b.Fits p node.entity node.kind
  /-- What an access is read through was there first. -/
  older : ∀ {r n key}, b.pag.Accesses r n key → n < r
  graph : b.graph.Consistent p
  summary : ∀ {f s}, (f, s) ∈ b.summaries → s.Sound p b.graph f
  /-- Links copy; they make nothing an object. -/
  link : ∀ {l}, l ∈ b.links → l.2.1 ≠ .address

namespace Grows

theorem rfl {b : Builder} : b.Grows b where
  pag := .rfl
  pts := fun h => h
  edges := Or.inl
  newEdges := fun h => h
  sites := Or.inl
  newSites := fun h => h
  graph := .rfl
  summary := fun h => h

theorem trans {b₁ b₂ b₃ : Builder} (h : b₁.Grows b₂) (h' : b₂.Grows b₃) : b₁.Grows b₃ where
  pag := h.pag.trans h'.pag
  pts := fun ho => h.pts (h'.pts ho)
  edges := fun he => by
    rcases h'.edges he with he | he
    · exact (h.edges he).imp_right h'.newEdges
    · exact Or.inr he
  newEdges := fun he => h'.newEdges (h.newEdges he)
  sites := fun hs => by
    rcases h'.sites hs with hs | hs
    · exact (h.sites hs).imp_right h'.newSites
    · exact Or.inr hs
  newSites := fun hs => h'.newSites (h.newSites hs)
  graph := h.graph.trans h'.graph
  summary := fun hs => h'.summary (h.summary hs)

/-- A change that touches neither nodes nor edges. -/
theorem of_same {b b' : Builder} (nodes : b'.pag.nodes = b.pag.nodes)
    (edges : b'.pag.edges = b.pag.edges) (newEdges : b'.newEdges = b.newEdges)
    (newSites : b'.newSites = b.newSites) (graph : b.graph.Grows b'.graph)
    (summary : ∀ {f s}, b.summary? f = some s → b'.summary? f = some s) : b.Grows b' where
  pag := ⟨fun {n node} hn => ⟨node, by rw [Pag.node?_congr nodes]; exact hn, .rfl⟩,
    fun he => by rwa [edges]⟩
  pts := fun {n o} ho => by rwa [Pag.ptsOf, Pag.node?_congr nodes] at ho
  edges := fun he => by rw [edges] at he; exact Or.inl he
  newEdges := fun he => by rwa [newEdges]
  sites := fun {n site} hs => by rw [Pag.sitesOf, Pag.node?_congr nodes] at hs; exact Or.inl hs
  newSites := fun hs => by rwa [newSites]
  graph := graph
  summary := summary

end Grows

/-! ## Growth -/

theorem run_addEdge (b : Builder) (kind : EdgeKind) (src dst : NodeId) :
    ((Build.addEdge kind src dst).run b).2 = { b with
      pag := (b.pag.addEdge kind src dst).2
      newEdges := if (b.pag.addEdge kind src dst).1 then b.newEdges.push ⟨kind, src, dst⟩
        else b.newEdges } := by
  cases h : (b.pag.addEdge kind src dst).1 with
  | true => simp [Build.addEdge, h, pure]
  | false => simp [Build.addEdge, h, pure, Pag.addEdge_of_not_new h]

theorem run_addSite (b : Builder) (n : NodeId) (site : SiteRef) :
    ((Build.addSite n site).run b).2 = { b with
      pag := (b.pag.addSite n site).2
      newSites := if (b.pag.addSite n site).1 then b.newSites.push (n, site)
        else b.newSites } := by
  cases h : (b.pag.addSite n site).1 with
  | true => simp [Build.addSite, h, pure]
  | false => simp [Build.addSite, h, pure, Pag.addSite_of_not_new h]

theorem grows_addNode (b : Builder) (cid : ContextId) (e : Entity) (kind : NodeKind) :
    b.Grows { b with pag := (b.pag.addNode cid e kind).2 } where
  pag := b.pag.addNode_extends cid e kind
  pts := fun ho => Pag.mem_ptsOf_addNode.1 ho
  edges := fun he => Or.inl (by simpa using he)
  newEdges := fun he => he
  sites := fun hs => Or.inl (Pag.mem_sitesOf_addNode.1 hs)
  newSites := fun hs => hs
  graph := .rfl
  summary := fun hs => hs

theorem grows_addEdge (b : Builder) (kind : EdgeKind) (src dst : NodeId) :
    b.Grows ((Build.addEdge kind src dst).run b).2 := by
  rw [run_addEdge]
  exact {
    pag := b.pag.addEdge_extends kind src dst
    pts := fun {n o} ho => by simpa [Pag.ptsOf] using ho
    edges := fun {e} he => by
      refine (Pag.mem_edges_addEdge he).imp_right ?_
      rintro ⟨hnew, rfl, -⟩
      simp [hnew]
    newEdges := fun he => by
      dsimp only
      split
      · exact Array.mem_push.2 (Or.inl he)
      · exact he
    sites := fun {n site} hs => Or.inl (by simpa [Pag.sitesOf] using hs)
    newSites := fun hs => hs
    graph := .rfl
    summary := fun hs => hs }

theorem grows_addSite (b : Builder) (n : NodeId) (site : SiteRef) :
    b.Grows ((Build.addSite n site).run b).2 := by
  rw [run_addSite]
  exact {
    pag := b.pag.addSite_extends n site
    pts := fun ho => Pag.mem_ptsOf_addSite.1 ho
    edges := fun he => Or.inl (by simpa using he)
    newEdges := fun he => he
    sites := fun hs => by
      refine (Pag.mem_sitesOf_addSite hs).imp_right ?_
      rintro ⟨hnew, rfl, rfl⟩
      simp [hnew]
    newSites := fun hs => by
      dsimp only
      split
      · exact Array.mem_push.2 (Or.inl hs)
      · exact hs
    graph := .rfl
    summary := fun hs => hs }

theorem Step.grows {p : Program} {b b' : Builder} (h : Step p b b') : b.Grows b' := by
  cases h with
  | node cid e kind _ => exact b.grows_addNode cid e kind
  | edge kind src dst _ => exact b.grows_addEdge kind src dst
  | site n site => exact b.grows_addSite n site
  | func m missing =>
    exact .of_same rfl rfl rfl rfl (b.graph.nodeFor_grows p m missing) fun hs => hs
  | call src dst stmt kind =>
    exact .of_same rfl rfl rfl rfl (b.graph.addCall_grows src dst stmt kind) fun hs => hs
  | access base ref =>
    exact .of_same (b.pag.nodes_addBaseRef base ref) (b.pag.edges_addBaseRef base ref) rfl rfl .rfl
      fun hs => hs
  | summary f s _ =>
    refine .of_same rfl rfl rfl rfl .rfl fun {f' s'} hs => ?_
    unfold summary? at hs ⊢
    rw [List.lookup_append, hs]
    rfl
  | link => exact .of_same rfl rfl rfl rfl .rfl fun hs => hs
  | note => exact .of_same rfl rfl rfl rfl .rfl fun hs => hs

/-! ## Soundness -/

theorem Fits.mono {p : Program} {b b' : Builder} {e : Entity} {kind : NodeKind}
    (h : b.Fits p e kind) (hg : b.Grows b') : b'.Fits p e kind where
  object := h.object
  base := fun hk he => by
    obtain ⟨node, hn, hne⟩ := h.base hk he
    obtain ⟨node', hn', hgrow⟩ := hg.pag.node hn
    exact ⟨node', hn', by rw [hgrow.entity]; exact hne⟩
  func := fun hk hf => hg.graph.method (h.func hk hf)
  bound := h.bound

/-- Growth keeps a builder sound if everything new is right. -/
theorem Sound.grow {p : Program} {b b' : Builder} (hb : b.Sound p) (hg : b.Grows b')
    (edge : ∀ {e}, e ∈ b'.pag.edges → e ∈ b.pag.edges ∨
      (e.src < b'.pag.nodes.size ∧ e.dst < b'.pag.nodes.size) ∧
        (e.kind = .address → b'.pag.isObject e.src = true))
    (logged : ∀ {e}, e ∈ b'.newEdges → e ∈ b'.pag.edges)
    (node : ∀ {n node}, b'.pag.node? n = some node →
      n < b.pag.nodes.size ∨ b.pag.nodes.size ≤ n ∧ b.Fits p node.entity node.kind)
    (graph : b'.graph.Consistent p)
    (summary : ∀ {f s}, (f, s) ∈ b'.summaries → (f, s) ∈ b.summaries ∨ s.Sound p b.graph f)
    (link : ∀ {l}, l ∈ b'.links → l ∈ b.links ∨ l.2.1 ≠ .address) :
    b'.Sound p where
  edge := fun he => by
    rcases edge he with he | he
    · exact ⟨hg.pag.lt (hb.edge he).1, hg.pag.lt (hb.edge he).2⟩
    · exact he.1
  address := fun he hk => by
    rcases edge he with he | he
    · exact hg.pag.isObject (hb.address he hk)
    · exact he.2 hk
  logged := logged
  fits := fun {n nd} hn => by
    rcases node hn with hlt | ⟨-, hfits⟩
    · obtain ⟨old, hold, hgrow⟩ := hg.pag.back hlt hn
      rw [hgrow.entity, hgrow.kind]
      exact (hb.fits hold).mono hg
    · exact hfits.mono hg
  older := fun {r n key} ⟨nd, hn, he, hk⟩ => by
    rcases node hn with hlt | ⟨hle, hfits⟩
    · obtain ⟨old, hold, hgrow⟩ := hg.pag.back hlt hn
      rw [hgrow.entity] at he
      rw [hgrow.kind] at hk
      exact hb.older ⟨old, hold, he, hk⟩
    -- A new access: its base was there before, and new nodes come after all others.
    · obtain ⟨base, hbase, -⟩ := hfits.base hk he
      exact Nat.lt_of_lt_of_le (Pag.node?_lt hbase) hle
  graph := graph
  summary := fun hs => by
    rcases summary hs with hs | hs
    · exact (hb.summary hs).mono hg.graph
    · exact hs.mono hg.graph
  link := fun hl => (link hl).elim hb.link id

/-- A change that touches neither nodes nor edges. -/
theorem Sound.of_same {p : Program} {b b' : Builder} (hb : b.Sound p) (hg : b.Grows b')
    (nodes : b'.pag.nodes = b.pag.nodes) (edges : b'.pag.edges = b.pag.edges)
    (newEdges : b'.newEdges = b.newEdges) (graph : b'.graph.Consistent p)
    (summary : ∀ {f s}, (f, s) ∈ b'.summaries → (f, s) ∈ b.summaries ∨ s.Sound p b.graph f)
    (link : ∀ {l}, l ∈ b'.links → l ∈ b.links ∨ l.2.1 ≠ .address) :
    b'.Sound p := by
  refine hb.grow hg (fun he => ?_) (fun he => ?_) (fun hn => ?_) graph summary link
  · rw [edges] at he
    exact Or.inl he
  · rw [newEdges] at he
    rw [edges]
    exact hb.logged he
  · exact Or.inl (by rw [← nodes]; exact Pag.node?_lt hn)

theorem Step.sound {p : Program} {b b' : Builder} (h : Step p b b') (hb : b.Sound p) :
    b'.Sound p := by
  have hg := h.grows
  cases h with
  | node cid e kind fits =>
    refine hb.grow hg (fun he => Or.inl (by simpa using he)) (fun he => ?_) (fun hn => ?_) hb.graph
      Or.inl Or.inl
    · simpa using hb.logged he
    -- Either the node was there, or it is the one that was made.
    · rcases Pag.node?_addNode hn with hn | ⟨rfl, rfl⟩
      · exact Or.inl (Pag.node?_lt hn)
      · exact Or.inr ⟨Nat.le_refl _, fits⟩
  | edge kind src dst object =>
    rw [run_addEdge] at hg ⊢
    refine hb.grow hg (fun he => ?_) (fun he => ?_) (fun hn => ?_) hb.graph Or.inl Or.inl
    · refine (Pag.mem_edges_addEdge he).imp_right ?_
      rintro ⟨-, rfl, hs, hd⟩
      exact ⟨⟨by simpa using hs, by simpa using hd⟩, fun hk => hg.pag.isObject (object hk)⟩
    · dsimp only at he ⊢
      split at he
      · rename_i hnew
        rcases Array.mem_push.1 he with he | rfl
        · exact hg.pag.edge (hb.logged he)
        · exact Pag.mem_edges_of_new hnew
      · exact hg.pag.edge (hb.logged he)
    · exact Or.inl (by simpa using Pag.node?_lt hn)
  | site n site =>
    rw [run_addSite] at hg ⊢
    refine hb.grow hg (fun he => Or.inl (by simpa using he)) (fun he => ?_) (fun hn => ?_) hb.graph
      Or.inl Or.inl
    · simpa using hb.logged he
    · exact Or.inl (by simpa using Pag.node?_lt hn)
  | func m missing => exact hb.of_same hg rfl rfl rfl hb.graph.nodeFor Or.inl Or.inl
  | call src dst stmt kind => exact hb.of_same hg rfl rfl rfl hb.graph.addCall Or.inl Or.inl
  | access base ref =>
    exact hb.of_same hg (b.pag.nodes_addBaseRef base ref) (b.pag.edges_addBaseRef base ref) rfl
      hb.graph Or.inl Or.inl
  | summary f s sound =>
    refine hb.of_same hg rfl rfl rfl hb.graph (fun {f' s'} hs => ?_) Or.inl
    rcases List.mem_append.1 hs with hs | hs
    · exact Or.inl hs
    · cases List.mem_singleton.1 hs
      exact Or.inr sound
  | link v kind target copies =>
    refine hb.of_same hg rfl rfl rfl hb.graph Or.inl fun {l} hl => ?_
    rcases List.mem_append.1 hl with hl | hl
    · exact Or.inl hl
    · cases List.mem_singleton.1 hl
      exact Or.inr copies
  | note => exact hb.of_same hg rfl rfl rfl hb.graph Or.inl Or.inl

/-- What the solver does to the graph keeps a builder sound: no nodes, and no edges but copies. -/
theorem Sound.of_extends {p : Program} {b b' : Builder} (hb : b.Sound p)
    (hg : b.pag.Extends b'.pag) (size : b'.pag.nodes.size = b.pag.nodes.size)
    (edge : ∀ {e}, e ∈ b'.pag.edges → e ∈ b.pag.edges ∨
      e.kind ≠ .address ∧ e.src < b.pag.nodes.size ∧ e.dst < b.pag.nodes.size)
    (logged : ∀ {e}, e ∈ b'.newEdges → e ∈ b.newEdges) (graph : b'.graph = b.graph)
    (summaries : b'.summaries = b.summaries) (links : b'.links = b.links) : b'.Sound p where
  edge := fun he => by
    rw [size]
    rcases edge he with he | he
    · exact hb.edge he
    · exact he.2
  address := fun he hk => by
    rcases edge he with he | he
    · exact hg.isObject (hb.address he hk)
    · exact absurd hk he.1
  logged := fun he => hg.edge (hb.logged (logged he))
  fits := fun {n node} hn => by
    obtain ⟨old, hold, hgrow⟩ := hg.back (size ▸ Pag.node?_lt hn) hn
    obtain ⟨object, base, func, bound⟩ := hb.fits hold
    rw [hgrow.entity, hgrow.kind]
    refine ⟨object, fun hk he => ?_, fun hk hf => by rw [graph]; exact func hk hf, bound⟩
    obtain ⟨bnode, hbnode, hne⟩ := base hk he
    obtain ⟨bnode', hbnode', hbgrow⟩ := hg.node hbnode
    exact ⟨bnode', hbnode', by rw [hbgrow.entity]; exact hne⟩
  older := fun {r n key} ⟨node, hn, he, hk⟩ => by
    obtain ⟨old, hold, hgrow⟩ := hg.back (size ▸ Pag.node?_lt hn) hn
    rw [hgrow.entity] at he
    rw [hgrow.kind] at hk
    exact hb.older ⟨old, hold, he, hk⟩
  graph := graph ▸ hb.graph
  summary := fun hs => by
    rw [graph]
    exact hb.summary (summaries ▸ hs)
  link := fun hl => hb.link (links ▸ hl)

/-! ## Any number of steps -/

namespace Steps

variable {p : Program} {b b' : Builder}

theorem grows (h : Steps p b b') : b.Grows b' := by
  induction h with
  | refl => exact .rfl
  | tail _ hstep ih => exact ih.trans hstep.grows

theorem sound (h : Steps p b b') (hb : b.Sound p) : b'.Sound p := by
  induction h with
  | refl => exact hb
  | tail _ hstep ih => exact hstep.sound ih

theorem of_step (h : Step p b b') : Steps p b b' :=
  .single h

/-- None of the steps takes up a method. -/
theorem built (h : Steps p b b') : b'.built = b.built := by
  induction h with
  | refl => rfl
  | tail _ hstep ih =>
    rw [← ih]
    cases hstep with
    | edge kind src dst _ => rw [run_addEdge]
    | site n site => rw [run_addSite]
    | node | func | call | access | summary | link | note => rfl

end Steps

/-- Nothing is laid out at the start. -/
theorem sound_ofGraph {p : Program} {g : CallGraph} (hg : g.Consistent p) (backing : Backing)
    (sensitivity : Sensitivity) (k : Nat) : (ofGraph g backing sensitivity k).Sound p where
  edge := fun he => by simp [ofGraph] at he
  address := fun he => by simp [ofGraph] at he
  logged := fun he => by simp [ofGraph] at he
  fits := fun hn => by simp [ofGraph, Pag.node?] at hn
  older := fun ⟨_, hn, _⟩ => by simp [ofGraph, Pag.node?] at hn
  graph := hg
  summary := fun hs => by simp [ofGraph] at hs
  link := fun hl => by simp [ofGraph] at hl

end Builder

end PointsTo
