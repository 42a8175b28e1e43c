import PointsTo.Proofs.Actions.States
import PointsTo.Proofs.Builder.Answers
import PointsTo.Proofs.Builder.Nodes
import PointsTo.Proofs.CallGraph.Recording

/-!
# Links

A link gives all nodes of a value an edge to its target, those that are there and those that come
later. A builder is *linked* (`Builder.Linked`) if every node has the edges of the links from what
it stands for, and every node that reads a captured variable is the target of a link.

While a node is being made it is not: it has no edges yet. So what is said of a single node is said
apart (`HasLinkEdges`, `HasCaptureLink`), and edges and links that are added keep it for each node
(`AddsLinks`). What a request as a whole does keeps a builder linked, whether it asks for methods
(`KeepsLinked`) or not (`KeepsRequests`). It shows no facts, and forgets no calls
(`KeepsFactsAndCalls`).
-/

namespace PointsTo

/-- Of the free locals of the method, the summary leaves out none. -/
def Summary.ListsFree (p : Program) (g : CallGraph) (f : FuncId) (s : Summary) : Prop :=
  ∃ m, g.methodOf? f = some m ∧ ∀ decl, p.method? m = some decl → ∀ v ∈ decl.locals, ∀ x,
    Summarize.freeLocal? p v = some x → x ∈ s.free

theorem Summary.ListsFree.mono {p : Program} {g g' : CallGraph} {f : FuncId} {s : Summary}
    (h : s.ListsFree p g f) (hg : g.Grows g') : s.ListsFree p g' f := by
  obtain ⟨m, hm, hfree⟩ := h
  exact ⟨m, hg.method hm, hfree⟩

/-- The ends of its moves have nodes on request, and its static calls are sites of the call
graph. -/
structure Summary.FromGraph (g : CallGraph) (s : Summary) : Prop where
  plain : ∀ e ∈ s.edges, e.src.IsPlain ∧ e.dst.IsPlain
  sites : ∀ site ∈ s.staticCalls, site ∈ g.sites

theorem Summary.FromGraph.mono {g g' : CallGraph} {s : Summary}
    (h : s.FromGraph g) (hg : g.Grows g') : s.FromGraph g' :=
  ⟨h.plain, fun site hsite => hg.sites ▸ h.sites site hsite⟩

namespace Builder

/-- The call graph is one of the program, the summaries are drawn from it, and no context has two
ids. -/
structure WellFormed (p : Program) (b : Builder) : Prop where
  graph : b.graph.Consistent p
  summary : ∀ {f s}, (f, s) ∈ b.summaries → s.FromGraph b.graph
  contexts : b.contexts.Proper fun _ => True

/-- The node has the edges of the links from what it stands for. -/
def HasLinkEdges (b : Builder) (n : NodeId) : Prop :=
  ∀ l ∈ b.links, b.pag.entity? n = some (.value l.1) → ⟨l.2.1, n, l.2.2⟩ ∈ b.pag.edges

/-- If the node reads a captured variable, there is a link from that to the node. -/
def HasCaptureLink (p : Program) (b : Builder) (n : NodeId) : Prop :=
  ∀ {v env name x}, b.pag.entity? n = some (.value v) → p.value? v = some (.captured env name) →
    p.captured? env name = some x → (x, .interprocedural, n) ∈ b.links

/-- All nodes have the edges that they have coming. -/
structure Linked (p : Program) (b : Builder) : Prop where
  unique : b.pag.Unique
  target : ∀ l ∈ b.links, l.2.2 < b.pag.nodes.size
  linkEdges : ∀ n, b.HasLinkEdges n
  captureLinks : ∀ n, b.HasCaptureLink p n
  free : ∀ {f s}, (f, s) ∈ b.summaries → s.ListsFree p b.graph f

theorem linked_ofGraph (p : Program) (g : CallGraph) (backing : Backing)
    (sensitivity : Sensitivity) (k : Nat) : (ofGraph g backing sensitivity k).Linked p where
  unique := fun _ _ _ _ hx => by simp [ofGraph, Pag.node?] at hx
  target := nofun
  linkEdges := fun _ => nofun
  captureLinks := fun _ _ _ _ _ hn => by simp [ofGraph, Pag.entity?, Pag.node?] at hn
  free := nofun

variable {p : Program} {b b' b₁ b₂ b₃ : Builder}

theorem wellFormed_ofGraph {g : CallGraph} (hg : g.Consistent p) (backing : Backing)
    (sensitivity : Sensitivity) (k : Nat) : (ofGraph g backing sensitivity k).WellFormed p where
  graph := hg
  summary := nofun
  contexts := ContextTable.proper_new _ sensitivity k

theorem WellFormed.of_same (h : b.WellFormed p) (graph : b'.graph = b.graph)
    (summaries : b'.summaries = b.summaries) (contexts : b'.contexts = b.contexts) :
    b'.WellFormed p where
  graph := graph ▸ h.graph
  summary := fun hs => graph ▸ h.summary (summaries ▸ hs)
  contexts := contexts ▸ h.contexts

/-! ## Edges and links -/

/-- Nothing was asked for, and no answer was noted. -/
structure SameRequests (b b' : Builder) : Prop where
  contexts : b'.contexts = b.contexts
  pending : b'.pending = b.pending
  singletons : b'.singletons = b.singletons
  unhandled : b'.unhandled = b.unhandled

theorem SameRequests.rfl : b.SameRequests b :=
  ⟨.refl _, .refl _, .refl _, .refl _⟩

theorem SameRequests.trans (h : b₁.SameRequests b₂) (h' : b₂.SameRequests b₃) :
    b₁.SameRequests b₃ :=
  ⟨h'.contexts.trans h.contexts, h'.pending.trans h.pending, h'.singletons.trans h.singletons,
    h'.unhandled.trans h.unhandled⟩

/-- Only edges were added. -/
structure AddsEdges (b b' : Builder) : Prop where
  nodes : b'.pag.nodes = b.pag.nodes
  edge : ∀ {e}, e ∈ b.pag.edges → e ∈ b'.pag.edges
  links : b'.links = b.links
  summaries : b'.summaries = b.summaries
  graph : b'.graph = b.graph
  built : b'.built = b.built
  requests : b.SameRequests b'

instance : IsPreorder Builder AddsEdges where
  refl _ := ⟨rfl, id, rfl, rfl, rfl, rfl, .rfl⟩
  trans _ _ _ h h' := ⟨h'.nodes.trans h.nodes, fun he => h'.edge (h.edge he),
    h'.links.trans h.links, h'.summaries.trans h.summaries, h'.graph.trans h.graph,
    h'.built.trans h.built, h.requests.trans h'.requests⟩

/-- Only edges and links were added, and a node that had the edges of its links still has them. -/
structure AddsLinks (b b' : Builder) : Prop where
  nodes : b'.pag.nodes = b.pag.nodes
  edge : ∀ {e}, e ∈ b.pag.edges → e ∈ b'.pag.edges
  link : ∀ {l}, l ∈ b.links → l ∈ b'.links
  target : (∀ l ∈ b.links, l.2.2 < b.pag.nodes.size) → ∀ l ∈ b'.links, l.2.2 < b.pag.nodes.size
  linkEdges : ∀ {n}, b.HasLinkEdges n → b'.HasLinkEdges n
  summaries : b'.summaries = b.summaries
  graph : b'.graph = b.graph
  built : b'.built = b.built
  requests : b.SameRequests b'

instance : IsPreorder Builder AddsLinks where
  refl _ := ⟨rfl, id, id, id, id, rfl, rfl, rfl, .rfl⟩
  trans _ _ _ h h' := ⟨h'.nodes.trans h.nodes, fun he => h'.edge (h.edge he),
    fun hl => h'.link (h.link hl), fun ht => h.nodes ▸ h'.target (h.nodes.symm ▸ h.target ht),
    fun hn => h'.linkEdges (h.linkEdges hn), h'.summaries.trans h.summaries, h'.graph.trans h.graph,
    h'.built.trans h.built, h.requests.trans h'.requests⟩

theorem entity?_congr {g g' : Pag} (h : g'.nodes = g.nodes) (n : NodeId) :
    g'.entity? n = g.entity? n := by
  unfold Pag.entity?
  rw [Pag.node?_congr h]

theorem AddsEdges.addsLinks (h : b.AddsEdges b') : b.AddsLinks b' where
  nodes := h.nodes
  edge := h.edge
  link := fun hl => h.links ▸ hl
  target := fun ht l hl => ht l (h.links ▸ hl)
  linkEdges := fun hn l hl he => h.edge (hn l (h.links ▸ hl) (entity?_congr h.nodes _ ▸ he))
  summaries := h.summaries
  graph := h.graph
  built := h.built
  requests := h.requests

/-- A link, with its edges from all nodes of the value. -/
theorem AddsEdges.addsLinks_link {v : ValueId} {kind : EdgeKind} {target : NodeId}
    (h : AddsEdges { b with links := b.links ++ [(v, kind, target)] } b')
    (ht : target < b.pag.nodes.size)
    (hedges : ∀ n ∈ b.pag.nodesOf v, ⟨kind, n, target⟩ ∈ b'.pag.edges) : b.AddsLinks b' := by
  have hlinks : b'.links = b.links ++ [(v, kind, target)] := h.links
  refine ⟨h.nodes, h.edge, fun hl => ?_, fun hall l hl => ?_, fun {n} hn l hl he => ?_,
    h.summaries, h.graph, h.built,
    ⟨h.requests.contexts, h.requests.pending, h.requests.singletons, h.requests.unhandled⟩⟩
  · rw [hlinks]
    exact List.mem_append_left _ hl
  · rw [hlinks] at hl
    rcases List.mem_append.1 hl with hl | hl
    · exact hall l hl
    · rw [List.mem_singleton.1 hl]
      exact ht
  · rw [hlinks] at hl
    rw [entity?_congr h.nodes n] at he
    rcases List.mem_append.1 hl with hl | hl
    · exact h.edge (hn l hl he)
    · cases List.mem_singleton.1 hl
      exact hedges n (Pag.mem_nodesOf.2 he)

theorem hasCaptureLink_of_entity? {n : NodeId} {v : ValueId}
    (hn : b.pag.entity? n = some (.value v))
    (h : ∀ env name x, p.value? v = some (.captured env name) → p.captured? env name = some x →
      (x, .interprocedural, n) ∈ b.links) : b.HasCaptureLink p n := by
  intro v' env name x he hv hx
  rw [hn] at he
  cases he
  exact h env name x hv hx

theorem AddsLinks.captureLink {n : NodeId} (h : b.AddsLinks b') (hn : b.HasCaptureLink p n) :
    b'.HasCaptureLink p n :=
  fun he hv hx => h.link (hn (entity?_congr h.nodes n ▸ he) hv hx)

theorem AddsLinks.pag (h : b.AddsLinks b') : b.pag.Extends b'.pag where
  node := fun {n x} hx => ⟨x, by rw [Pag.node?_congr h.nodes]; exact hx, .rfl⟩
  edge := h.edge

/-! ## Requests -/

/-- No facts are shown, and no call and no unhandled method is forgotten. -/
structure KeepsFactsAndCalls (b b' : Builder) : Prop where
  pts : b'.pag.ptsOf = b.pag.ptsOf
  hasCallOnce : ∀ {src dst stmt kind}, b.graph.HasCallOnce src dst stmt kind →
    b'.graph.HasCallOnce src dst stmt kind
  unhandled : b.unhandled ⊆ b'.unhandled

theorem KeepsFactsAndCalls.rfl : b.KeepsFactsAndCalls b :=
  ⟨.refl _, id, List.Subset.refl _⟩

theorem KeepsFactsAndCalls.trans (h : b₁.KeepsFactsAndCalls b₂) (h' : b₂.KeepsFactsAndCalls b₃) :
    b₁.KeepsFactsAndCalls b₃ where
  pts := h'.pts.trans h.pts
  hasCallOnce := fun hc => h'.hasCallOnce (h.hasCallOnce hc)
  unhandled := fun _ hm => h'.unhandled (h.unhandled hm)

theorem KeepsFactsAndCalls.of_same (pts : b'.pag.ptsOf = b.pag.ptsOf) (graph : b'.graph = b.graph)
    (unhandled : b'.unhandled = b.unhandled) : b.KeepsFactsAndCalls b' :=
  ⟨pts, fun hc => graph ▸ hc, unhandled ▸ List.Subset.refl _⟩

/-- The builder later on, in which more may be asked for. It stays linked, and no method is taken
up. -/
structure KeepsLinked (p : Program) (b b' : Builder) : Prop extends KeepsAnswers p b b' where
  pag : b.pag.Extends b'.pag
  link : ∀ {l}, l ∈ b.links → l ∈ b'.links
  summary : ∀ {f s}, b.summary? f = some s → b'.summary? f = some s
  graph : b.graph.Grows b'.graph
  entries : b'.graph.entries = b.graph.entries
  built : b'.built = b.built
  linked : b.Linked p → b'.Linked p
  contexts : b.contexts.Extends b'.contexts
  pending : b.pending <+: b'.pending
  wellFormed : b.WellFormed p → b'.WellFormed p
  factsAndCalls : b.KeepsFactsAndCalls b'

instance (p : Program) : IsPreorder Builder (KeepsLinked p) where
  refl b :=
    ⟨refl_of (KeepsAnswers p) b, .rfl, id, id, .rfl, rfl, rfl, id, .rfl, List.prefix_rfl, id, .rfl⟩
  trans _ _ _ h h' :=
    ⟨trans_of (KeepsAnswers p) h.toKeepsAnswers h'.toKeepsAnswers, h.pag.trans h'.pag,
    fun hl => h'.link (h.link hl), fun hs => h'.summary (h.summary hs), h.graph.trans h'.graph,
    h'.entries.trans h.entries, h'.built.trans h.built, fun hb => h'.linked (h.linked hb),
    h.contexts.trans h'.contexts, h.pending.trans h'.pending,
    fun hb => h'.wellFormed (h.wellFormed hb), h.factsAndCalls.trans h'.factsAndCalls⟩

theorem KeepsLinked.extends (h : KeepsLinked p b b') : b.Extends b' where
  pag := h.pag
  graph := h.graph
  entries := h.entries
  contexts := h.contexts
  summary := h.summary
  single := h.single
  built := fun hx => h.built ▸ hx
  requested := fun hf => hf.imp (fun hx => h.pending.subset hx) fun hx => h.built ▸ hx

/-- The same, and nothing is asked for. -/
structure KeepsRequests (p : Program) (b b' : Builder) : Prop extends KeepsLinked p b b' where
  sameContexts : b'.contexts = b.contexts
  samePending : b'.pending = b.pending

instance (p : Program) : IsPreorder Builder (KeepsRequests p) where
  refl b := ⟨refl_of (KeepsLinked p) b, rfl, rfl⟩
  trans _ _ _ h h' := ⟨trans_of (KeepsLinked p) h.toKeepsLinked h'.toKeepsLinked,
    h'.sameContexts.trans h.sameContexts, h'.samePending.trans h.samePending⟩

/-- What a node stands for is what it stood for. -/
theorem entity?_of_size (h : b.pag.Extends b'.pag) (size : b'.pag.nodes.size = b.pag.nodes.size)
    {n : NodeId} {e : Entity} (hn : b'.pag.entity? n = some e) : b.pag.entity? n = some e :=
  h.entity?_back (size ▸ Pag.lt_of_entity? hn) hn

/-- There is no new node and no new link. -/
theorem Linked.of_same (hb : b.Linked p) (pag : b.pag.Extends b'.pag)
    (size : b'.pag.nodes.size = b.pag.nodes.size) (links : b'.links = b.links)
    (free : ∀ {f s}, (f, s) ∈ b'.summaries → s.ListsFree p b'.graph f) : b'.Linked p where
  unique := hb.unique.of_extends pag size
  target := fun l hl => size ▸ hb.target l (links ▸ hl)
  linkEdges := fun n l hl he =>
    pag.edge (hb.linkEdges n l (links ▸ hl) (entity?_of_size pag size he))
  captureLinks := fun n _ _ _ _ he hv hx =>
    links ▸ hb.captureLinks n (entity?_of_size pag size he) hv hx
  free := free

namespace KeepsRequests

/-- There is no new node and no new link. -/
theorem of_same (pag : b.pag.Extends b'.pag) (size : b'.pag.nodes.size = b.pag.nodes.size)
    (links : b'.links = b.links) (summary : ∀ {f s}, b.summary? f = some s → b'.summary? f = some s)
    (free : ∀ {f s}, (f, s) ∈ b'.summaries → (f, s) ∈ b.summaries ∨ s.ListsFree p b'.graph f)
    (answers : KeepsAnswers p b b') (graph : b.graph.Grows b'.graph)
    (entries : b'.graph.entries = b.graph.entries) (built : b'.built = b.built)
    (contexts : b'.contexts = b.contexts) (pending : b'.pending = b.pending)
    (wellFormed : b.WellFormed p → b'.WellFormed p) (factsAndCalls : b.KeepsFactsAndCalls b') :
    KeepsRequests p b b' where
  toKeepsAnswers := answers
  pag := pag
  link := fun hl => links ▸ hl
  summary := summary
  graph := graph
  entries := entries
  built := built
  contexts := contexts ▸ .rfl
  pending := pending ▸ List.prefix_rfl
  wellFormed := wellFormed
  factsAndCalls := factsAndCalls
  sameContexts := contexts
  samePending := pending
  linked := fun hb => hb.of_same pag size links fun hs =>
    (free hs).elim (fun hs => (hb.free hs).mono graph) id

theorem of_addsLinks (h : b.AddsLinks b') : KeepsRequests p b b' where
  toKeepsAnswers := .of_same (h.graph ▸ id) h.summaries h.requests.singletons
  pag := h.pag
  link := h.link
  summary := fun hs => by
    unfold summary?
    rw [h.summaries]
    exact hs
  graph := h.graph ▸ .rfl
  entries := h.graph ▸ rfl
  built := h.built
  contexts := h.requests.contexts ▸ .rfl
  pending := h.requests.pending ▸ List.prefix_rfl
  wellFormed := fun hb => hb.of_same h.graph h.summaries h.requests.contexts
  factsAndCalls := .of_same (Pag.ptsOf_congr h.nodes) h.graph h.requests.unhandled
  sameContexts := h.requests.contexts
  samePending := h.requests.pending
  linked := fun hb => {
    unique := hb.unique.of_extends h.pag (by rw [h.nodes])
    target := fun l hl => h.nodes ▸ h.target hb.target l hl
    linkEdges := fun n => h.linkEdges (hb.linkEdges n)
    captureLinks := fun n => h.captureLink (hb.captureLinks n)
    free := fun hs => h.graph ▸ hb.free (h.summaries ▸ hs) }

/-- A new node, with what it has coming. -/
theorem of_node {cid : ContextId} {e : Entity} {kind : NodeKind}
    (h : AddsLinks { b with pag := (b.pag.addNode cid e kind).2 } b')
    (hnew : (∀ l ∈ b.links, l.2.2 < (b.pag.addNode cid e kind).2.nodes.size) →
      b'.HasLinkEdges b.pag.nodes.size ∧ b'.HasCaptureLink p b.pag.nodes.size) :
        KeepsRequests p b b' where
  toKeepsAnswers := .of_same (by rw [h.graph]; exact id) h.summaries h.requests.singletons
  pag := (b.pag.addNode_extends cid e kind).trans h.pag
  link := h.link
  summary := fun hs => by
    unfold summary?
    rw [h.summaries]
    exact hs
  graph := by
    rw [h.graph]
    exact .rfl
  entries := by rw [h.graph]
  built := h.built
  contexts := by
    rw [h.requests.contexts]
    exact .rfl
  pending := by
    rw [h.requests.pending]
  wellFormed := fun hb => hb.of_same h.graph h.summaries h.requests.contexts
  factsAndCalls := .of_same ((Pag.ptsOf_congr h.nodes).trans (Pag.ptsOf_addNode ..)) h.graph
    h.requests.unhandled
  sameContexts := h.requests.contexts
  samePending := h.requests.pending
  linked := fun hb => by
    have hext := b.pag.addNode_extends cid e kind
    have htarget : ∀ l ∈ b.links, l.2.2 < (b.pag.addNode cid e kind).2.nodes.size :=
      fun l hl => hext.lt (hb.target l hl)
    obtain ⟨hlinked, hreads⟩ := hnew htarget
    -- A node is an old one, of which the same is said as before, or the new one.
    have cases : ∀ {n e'}, b'.pag.entity? n = some e' →
        b.pag.entity? n = some e' ∨ n = b.pag.nodes.size := by
      intro n e' he
      rw [entity?_congr h.nodes] at he
      exact (Pag.entity?_addNode he).imp_right And.left
    exact {
      unique := (hb.unique.addNode cid e kind).of_extends h.pag (by rw [h.nodes])
      target := fun l hl => h.nodes ▸ h.target htarget l hl
      linkEdges := fun n l hl he => by
        rcases cases he with hold | rfl
        · refine h.linkEdges (fun l hl he => ?_) l hl he
          exact hext.edge (hb.linkEdges n l hl (hext.entity?_back (Pag.lt_of_entity? hold) he))
        · exact hlinked l hl he
      captureLinks := fun n _ _ _ _ he hv hx => by
        rcases cases he with hold | rfl
        · exact h.link (hb.captureLinks n hold hv hx)
        · exact hreads he hv hx
      free := fun hs => h.graph ▸ hb.free (h.summaries ▸ hs) }

end KeepsRequests

end Builder

namespace Build

open Builder (AddsEdges AddsLinks KeepsRequests)

variable {p : Program} {b : Builder}

theorem addEdge_addsEdges {kind : EdgeKind} {src dst : NodeId} :
    Spec AddsEdges (addEdge kind src dst) b fun _ b' =>
      src < b.pag.nodes.size → dst < b.pag.nodes.size → ⟨kind, src, dst⟩ ∈ b'.pag.edges := by
  have hrun := b.run_addEdge kind src dst
  refine ⟨?_, fun hsrc hdst => ?_⟩
  · rw [hrun]
    exact ⟨Pag.nodes_addEdge .., (b.pag.addEdge_extends kind src dst).edge, rfl, rfl, rfl, rfl,
      ⟨rfl, rfl, rfl, rfl⟩⟩
  · rw [hrun]
    exact Pag.mem_edges_of_addEdge hsrc hdst

/-- Edges that are there afterwards, if there are the nodes. -/
theorem addEdges_addsEdges {α : Type} {xs : List α} {kind : α → EdgeKind} {src dst : α → NodeId} :
    Spec AddsEdges (xs.forM fun x => discard (addEdge (kind x) (src x) (dst x))) b fun _ b' =>
      ∀ x ∈ xs, src x < b.pag.nodes.size → dst x < b.pag.nodes.size →
        ⟨kind x, src x, dst x⟩ ∈ b'.pag.edges := by
  refine .forM (fun _ _ _ h he hsrc hdst => h.edge (he hsrc hdst)) fun x _ b₁ h₁ => ?_
  refine .discard (addEdge_addsEdges.mono fun _ b₂ _ he => ?_)
  rw [h₁.nodes] at he
  exact he

/-- All nodes of the value get the edge, so nodes that had the edges of their links keep them. -/
theorem link_addsLinks {v : ValueId} {target : NodeId} {kind : EdgeKind}
    (ht : target < b.pag.nodes.size) :
    Spec AddsLinks (link v target kind) b fun _ b' => (v, kind, target) ∈ b'.links := by
  refine .get_bind ?_
  split
  · rename_i hold
    exact .pure (by simpa using hold)
  · let b₁ : Builder := { b with links := b.links ++ [(v, kind, target)] }
    have hloop : Spec AddsEdges ((b.pag.nodesOf v).forM fun n => discard (addEdge kind n target))
        b₁ fun _ b' => b.AddsLinks b' ∧ (v, kind, target) ∈ b'.links := by
      refine addEdges_addsEdges.mono fun _ b₂ h₂ hedges => ⟨h₂.addsLinks_link ht fun n hn => ?_, ?_⟩
      · exact hedges n hn (Pag.lt_of_entity? (Pag.mem_nodesOf.1 hn)) ht
      · rw [h₂.links]
        exact List.mem_append_right _ (List.mem_singleton.2 rfl)
    exact hloop.2

/-- The node gets the edges of the links from its value. -/
theorem comingEdges_addsLinks {n : NodeId} {v : ValueId} (hn : b.pag.entity? n = some (.value v))
    (hreads : b.HasCaptureLink p n) : Spec AddsLinks (do
      ((← get).links.filter fun l => l.1 = v).forM fun l => discard (addEdge l.2.1 n l.2.2)) b
      fun _ b' => (∀ l ∈ b.links, l.2.2 < b.pag.nodes.size) → b'.HasLinkEdges n ∧
      b'.HasCaptureLink p n := by
  refine .get_bind (.weaken (addEdges_addsEdges.mono fun _ b' h hedges ht => ?_)
    fun _ h => h.addsLinks)
  refine ⟨fun l hl he => ?_, h.addsLinks.captureLink hreads⟩
  rw [Builder.entity?_congr h.nodes, hn] at he
  cases he
  rw [h.links] at hl
  exact hedges l (List.mem_filter.2 ⟨hl, by simp⟩) (Pag.lt_of_entity? hn) (ht l hl)

/-- Then the node has what it has coming. -/
theorem onNewNode_addsLinks {n : NodeId} {e : Entity} (hn : b.pag.entity? n = some e) :
    Spec AddsLinks (onNewNode p n e) b fun _ b' =>
      (∀ l ∈ b.links, l.2.2 < b.pag.nodes.size) → b'.HasLinkEdges n ∧ b'.HasCaptureLink p n := by
  cases e with
  | value v =>
    unfold onNewNode
    dsimp only
    split
    · rename_i env name hv
      split
      · rename_i x hx
        refine .bind (link_addsLinks (Pag.lt_of_entity? hn)) fun _ b₁ h₁ hlink => ?_
        have hn₁ : b₁.pag.entity? n = some (.value v) := by
          rw [Builder.entity?_congr h₁.nodes]
          exact hn
        have hreads : b₁.HasCaptureLink p n := by
          refine Builder.hasCaptureLink_of_entity? hn₁ fun env' name' x' hv' hx' => ?_
          rw [hv] at hv'
          cases hv'
          rw [hx] at hx'
          cases hx'
          exact hlink
        refine (comingEdges_addsLinks hn₁ hreads).mono fun _ b₂ _ hlinked ht => hlinked ?_
        rw [h₁.nodes]
        exact h₁.target ht
      · rename_i hnone
        refine comingEdges_addsLinks hn
          (Builder.hasCaptureLink_of_entity? hn fun env' name' x' hv' hx' => ?_)
        rw [hv] at hv'
        cases hv'
        exact absurd hx' (hnone x')
    · rename_i hother
      refine comingEdges_addsLinks hn
        (Builder.hasCaptureLink_of_entity? hn fun env' name' _ hv' => ?_)
      exact absurd hv' (hother env' name')
  | _ =>
    refine .pure fun _ => ⟨fun l _ he => ?_, fun he => ?_⟩
    all_goals
      rw [hn] at he
      cases he

/-! ## Single requests -/

theorem nodeWithKind_linkSpec {cid : ContextId} {e : Entity} {kind : NodeKind} :
    Spec (KeepsRequests p) (nodeWithKind p cid e kind) b fun n b' =>
      b'.pag.find? cid e = some n := by
  have hfound := b.pag.find?_addNode cid e kind
  unfold nodeWithKind
  refine .get_bind ?_
  cases hold : b.pag.find? cid e with
  | some n =>
    have hadd : b.pag.addNode cid e kind = ((n, false), b.pag) := by
      unfold Pag.addNode
      rw [hold]
    rw [hadd]
    exact .modify_bind (refl_of (KeepsRequests p) b) (.pure hold)
  | none =>
    have hadd : b.pag.addNode cid e kind =
        ((b.pag.nodes.size, true), (b.pag.addNode cid e kind).2) := by
      unfold Pag.addNode
      rw [hold]
    let b₁ : Builder := { b with pag := (b.pag.addNode cid e kind).2 }
    have hentity : b₁.pag.entity? b.pag.nodes.size = some e := by
      rw [hadd] at hfound
      obtain ⟨⟨x, hx, -, he⟩, -⟩ := Pag.find?_eq_some_iff.1 hfound
      exact Option.map_eq_some_iff.2 ⟨x, hx, he⟩
    obtain ⟨hadds, hlinked⟩ := onNewNode_addsLinks (p := p) hentity
    rw [hadd] at hfound
    rw [hadd]
    exact ⟨.of_node hadds hlinked, hadds.pag.find? hfound⟩

/-- The fields of objects have no links. -/
theorem fieldNode_linkSpec {obj : NodeId} {key : FieldKey} {cloneOf : Option NodeId} :
    Spec (KeepsRequests p) (fieldNode obj key cloneOf) b fun _ _ => True := by
  refine ⟨.of_node (refl_of AddsLinks _) fun _ => ?_, trivial⟩
  have hother : ∀ {v}, (b.pag.addNode (b.pag.fieldContext obj) (.objField obj key)
      (.reference (some obj) key cloneOf)).2.entity? b.pag.nodes.size ≠ some (.value v) := by
    intro v he
    rcases Pag.entity?_addNode he with hold | ⟨-, heq⟩
    · exact absurd (Pag.lt_of_entity? hold) (Nat.lt_irrefl _)
    · cases heq
  exact ⟨fun l _ he => absurd he hother, fun he => absurd he hother⟩

theorem addEdge_linkSpec {kind : EdgeKind} {src dst : NodeId} :
    Spec (KeepsRequests p) (addEdge kind src dst) b fun _ b' =>
      src < b.pag.nodes.size → dst < b.pag.nodes.size → ⟨kind, src, dst⟩ ∈ b'.pag.edges :=
  addEdge_addsEdges.weaken fun _ h => .of_addsLinks h.addsLinks

theorem link_linkSpec {v : ValueId} {target : NodeId} {kind : EdgeKind}
    (ht : target < b.pag.nodes.size) :
    Spec (KeepsRequests p) (link v target kind) b fun _ b' => (v, kind, target) ∈ b'.links :=
  (link_addsLinks ht).weaken fun _ h => .of_addsLinks h

theorem addSite_linkSpec {n : NodeId} {site : SiteRef} :
    Spec (KeepsRequests p) (addSite n site) b fun _ _ => True := by
  refine ⟨?_, trivial⟩
  rw [Builder.run_addSite]
  exact .of_same (b.pag.addSite_extends n site) (Pag.size_addSite ..) rfl id Or.inl
    (.of_same id rfl rfl) .rfl rfl rfl rfl rfl (fun hb => hb.of_same rfl rfl rfl)
    (.of_same Pag.ptsOf_addSite rfl rfl)

theorem funcOf_linkSpec {m : MethodSig} {missing : FuncKind} :
    Spec (KeepsRequests p) (funcOf p m missing) b fun f b' => b'.graph.methodOf? f = some m := by
  have hgrows := b.graph.nodeFor_grows p m missing
  refine ⟨.of_same .rfl rfl rfl id Or.inl (.of_same hgrows.method rfl rfl) hgrows
    (CallGraph.entries_nodeFor ..) rfl rfl rfl (fun hb => ?_)
    ⟨rfl, fun hc => hc.congr (CallGraph.edges_nodeFor ..), List.Subset.refl _⟩,
    b.graph.methodOf?_nodeFor p m missing⟩
  exact ⟨hb.graph.nodeFor, fun hs => (hb.summary hs).mono hgrows, hb.contexts⟩

theorem addCall_linkSpec {src dst : FuncId} {stmt : StmtId} {kind : CallKind} :
    Spec (KeepsRequests p) (addCall src dst stmt kind) b fun _ _ => True := by
  have hgrows := b.graph.addCall_grows src dst stmt kind
  refine ⟨.of_same .rfl rfl rfl id Or.inl (.of_same hgrows.method rfl rfl) hgrows
    (CallGraph.entries_addCall ..) rfl rfl rfl (fun hb => ?_)
    ⟨rfl, fun hc => hc.addCall src dst stmt kind, List.Subset.refl _⟩, trivial⟩
  exact ⟨hb.graph.addCall, fun hs => (hb.summary hs).mono hgrows, hb.contexts⟩

end Build

end PointsTo
