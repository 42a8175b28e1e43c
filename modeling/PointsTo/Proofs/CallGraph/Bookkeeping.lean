import Mathlib.Data.Finset.Insert
import PointsTo.Proofs.CallGraph.Growth
import PointsTo.Proofs.Occurrences
import PointsTo.Proofs.Program.Declarations
import PointsTo.Proofs.Reach

/-!
# What is kept about a call graph

Nodes, calls and call sites are asked for in any order, and some more than once. What the graph
says afterwards can be told from the requests (`Booked`): the first request for a method decides
what its node is, the first one for a call site what the site is, and an edge records the calls
between its ends and no others. Call sites of both sorts share one count, so their ids together are
the numbers below it.

What is reachable is found in a graph that may have more nodes than there are methods, for a call
makes its ends known. Kept on its own, such a graph would have to follow every request
(`SearchGraph`), and it would have the nodes and the edges that the call graph has.
-/

namespace PointsTo.CallGraph

/-- A request to a call graph. -/
inductive Request where
  | node (m : MethodSig) (kind : FuncKind) (isSdk : Bool)
  | call (src dst : FuncId) (stmt : StmtId) (kind : CallKind)
  | site (stmt : StmtId) (args : List ValueId) (caller callee : FuncId)
  | dynSite (stmt : StmtId) (args : List ValueId) (caller : FuncId) (potential : Option FuncId)

/-- The graph after a request. -/
def serve (g : CallGraph) : Request → CallGraph
  | .node m kind isSdk => (g.addNode m kind isSdk).2
  | .call src dst stmt kind => (g.addCall src dst stmt kind).2
  | .site stmt args caller callee => (g.addSite stmt args caller callee).2
  | .dynSite stmt args caller potential => (g.addDynSite stmt args caller potential).2

/-- The graph after a sequence of requests. -/
def serveAll (g : CallGraph) (reqs : List Request) : CallGraph :=
  reqs.foldl serve g

variable {g : CallGraph} {f : FuncId} {m : MethodSig} {src dst : FuncId} {stmt : StmtId}

/-! ## What a request leaves alone -/

section frame

variable (g : CallGraph) (m : MethodSig) (kind : FuncKind) (isSdk : Bool) (src dst : FuncId)
  (stmt : StmtId) (args : List ValueId) (potential : Option FuncId) (call : CallKind)

@[simp] theorem sites_addNode : (g.addNode m kind isSdk).2.sites = g.sites := by
  unfold addNode
  split <;> rfl

@[simp] theorem dynSites_addNode : (g.addNode m kind isSdk).2.dynSites = g.dynSites := by
  unfold addNode
  split <;> rfl

@[simp] theorem sites_addDynSite : (g.addDynSite stmt args src potential).2.sites = g.sites := by
  unfold addDynSite
  split <;> rfl

end frame

/-! ## Nodes and their methods -/

/-- A node is made for a method that has none, at the next position. -/
theorem node?_serve {x : FuncNode} (g : CallGraph) (req : Request) :
    (g.serve req).node? f = some x ↔
      g.node? f = some x ∨
        req = .node x.method x.kind x.isSdk ∧ g.funcId? x.method = none ∧ f = g.nodes.size := by
  cases req with
  | node m kind isSdk =>
    rw [serve, addNode]
    cases hm : g.funcId? m with
    | some i =>
      refine ⟨Or.inl, fun h => h.resolve_right ?_⟩
      rintro ⟨heq, hnone, -⟩
      cases heq
      rw [hm] at hnone
      cases hnone
    | none =>
      dsimp only
      unfold node?
      rw [Array.getElem?_push]
      split
      · rename_i hf
        rw [Array.getElem?_eq_none (Nat.le_of_eq hf.symm)]
        constructor
        · rintro ⟨⟩
          exact Or.inr ⟨rfl, hm, hf⟩
        · rintro (h | ⟨h, -⟩)
          · cases h
          · cases h
            rfl
      · rename_i hf
        simp [hf]
  | call src dst stmt kind => simp [serve, node?]
  | site stmt args caller callee => simp [serve, node?]
  | dynSite stmt args caller potential => simp [serve, node?]

theorem exists_funcId?_iff : (∃ f, g.funcId? m = some f) ↔ ∃ f, g.methodOf? f = some m := by
  constructor
  · rintro ⟨f, hf⟩
    exact ⟨f, methodOf?_of_funcId? hf⟩
  · rintro ⟨f, hf⟩
    exact Option.ne_none_iff_exists'.1 fun hnone => methodOf?_ne_of_funcId? hnone f hf

/-- Whoever is asked for has a node. -/
theorem exists_node_serve (g : CallGraph) (req : Request) :
    (∃ f, (g.serve req).funcId? m = some f) ↔
      (∃ f, g.funcId? m = some f) ∨ ∃ kind isSdk, req = .node m kind isSdk := by
  simp only [exists_funcId?_iff, methodOf?, Option.map_eq_some_iff, node?_serve]
  constructor
  · rintro ⟨f, x, hx | ⟨rfl, -⟩, rfl⟩
    · exact Or.inl ⟨f, x, hx, rfl⟩
    · exact Or.inr ⟨_, _, rfl⟩
  · rintro (⟨f, x, hx, rfl⟩ | ⟨kind, isSdk, rfl⟩)
    · exact ⟨f, x, Or.inl hx, rfl⟩
    · cases hm : g.funcId? m with
      | none => exact ⟨_, ⟨m, kind, isSdk⟩, Or.inr ⟨rfl, hm, rfl⟩, rfl⟩
      | some f =>
        obtain ⟨x, hx, rfl⟩ := Option.map_eq_some_iff.1 (methodOf?_of_funcId? hm)
        exact ⟨f, x, Or.inl hx, rfl⟩

/-! ## Edges and their calls -/

theorem hasEdge_iff_link : g.hasEdge src dst = true ↔ (src, dst) ∈ g.links := by
  simp only [hasEdge, edge?, Array.find?_isSome, links, List.mem_map, Array.mem_toList_iff,
    Bool.and_eq_true, beq_iff_eq, Prod.mk.injEq]

theorem hasEdge_serve (g : CallGraph) (req : Request) :
    (g.serve req).hasEdge src dst = true ↔
      g.hasEdge src dst = true ∨ ∃ stmt kind, req = .call src dst stmt kind := by
  rw [hasEdge_iff_link, hasEdge_iff_link]
  cases req with
  | node m kind isSdk =>
    simp [serve, links]
  | call s d stmt kind =>
    rw [serve, mem_links_addCall]
    simp [eq_comm, and_comm]
  | site s args caller callee => simp [serve, links]
  | dynSite s args caller potential => simp [serve, links]

theorem calls_serve {kind : CallKind} (g : CallGraph) (req : Request) :
    (g.serve req).Calls src dst kind stmt ↔
      g.Calls src dst kind stmt ∨ req = .call src dst stmt kind := by
  cases req with
  | node m kind isSdk =>
    simp [serve, Calls, edge?]
  | call s d other k =>
    rw [serve, calls_addCall_iff]
    simp [eq_comm, and_comm]
  | site s args caller callee => simp [serve, Calls, edge?]
  | dynSite s args caller potential => simp [serve, Calls, edge?]

/-! ## Call sites -/

/-- A static site is made for a statement and a callee that have none, under the next id. -/
theorem mem_sites_serve {site : CallSite} (g : CallGraph) (req : Request) :
    site ∈ (g.serve req).sites ↔
      site ∈ g.sites ∨ req = .site site.stmt site.args site.caller site.callee ∧
        (∀ other ∈ g.sites, ¬(other.stmt = site.stmt ∧ other.callee = site.callee)) ∧
        site.id = g.siteCount := by
  cases req with
  | node m kind isSdk => simp [serve]
  | call s d other kind => simp [serve]
  | site stmt args caller callee =>
    rw [serve, addSite]
    cases hold : g.sites.find? fun s => s.stmt == stmt && s.callee == callee with
    | some old =>
      refine ⟨Or.inl, fun h => h.resolve_right ?_⟩
      rintro ⟨heq, hno, -⟩
      cases heq
      exact hno old (Array.mem_of_find?_eq_some hold) (by simpa using Array.find?_some hold)
    | none =>
      have hno : ∀ other ∈ g.sites, ¬(other.stmt = stmt ∧ other.callee = callee) := by
        simpa using hold
      simp only [Array.mem_push]
      refine or_congr_right ⟨?_, ?_⟩
      · rintro rfl
        exact ⟨rfl, hno, rfl⟩
      · rintro ⟨heq, -, hid⟩
        cases heq
        cases site
        cases hid
        rfl
  | dynSite stmt args caller potential => simp [serve]

theorem exists_site_serve {callee : FuncId} (g : CallGraph) (req : Request) :
    (∃ site ∈ (g.serve req).sites, site.stmt = stmt ∧ site.callee = callee) ↔
      (∃ site ∈ g.sites, site.stmt = stmt ∧ site.callee = callee) ∨
        ∃ args caller, req = .site stmt args caller callee := by
  simp only [mem_sites_serve]
  constructor
  · rintro ⟨site, h | ⟨rfl, -⟩, rfl, rfl⟩
    · exact Or.inl ⟨site, h, rfl, rfl⟩
    · exact Or.inr ⟨_, _, rfl⟩
  · rintro (⟨site, h, hsite⟩ | ⟨args, caller, rfl⟩)
    · exact ⟨site, Or.inl h, hsite⟩
    · by_cases hold : ∃ site ∈ g.sites, site.stmt = stmt ∧ site.callee = callee
      · obtain ⟨site, h, hsite⟩ := hold
        exact ⟨site, Or.inl h, hsite⟩
      · refine ⟨⟨g.siteCount, stmt, args, caller, callee⟩, Or.inr ⟨rfl, ?_, rfl⟩, rfl, rfl⟩
        exact fun other h heq => hold ⟨other, h, heq⟩

/-- A dynamic site is made for a statement that has none, under the next id. -/
theorem mem_dynSites_serve {site : DynCallSite} (g : CallGraph) (req : Request) :
    site ∈ (g.serve req).dynSites ↔
      site ∈ g.dynSites ∨ req = .dynSite site.stmt site.args site.caller site.potential ∧
        (∀ other ∈ g.dynSites, other.stmt ≠ site.stmt) ∧ site.id = g.siteCount := by
  cases req with
  | node m kind isSdk => simp [serve]
  | call s d other kind => simp [serve]
  | site stmt args caller callee => simp [serve]
  | dynSite stmt args caller potential =>
    rw [serve, addDynSite]
    cases hold : g.dynSiteAt? stmt with
    | some old =>
      refine ⟨Or.inl, fun h => h.resolve_right ?_⟩
      rintro ⟨heq, hno, -⟩
      cases heq
      exact hno old (Array.mem_of_find?_eq_some hold) (by simpa using Array.find?_some hold)
    | none =>
      have hno : ∀ other ∈ g.dynSites, other.stmt ≠ stmt := by
        simpa [dynSiteAt?] using hold
      simp only [Array.mem_push]
      refine or_congr_right ⟨?_, ?_⟩
      · rintro rfl
        exact ⟨rfl, hno, rfl⟩
      · rintro ⟨heq, -, hid⟩
        cases heq
        cases site
        cases hid
        rfl

theorem exists_dynSite_serve (g : CallGraph) (req : Request) :
    (∃ site ∈ (g.serve req).dynSites, site.stmt = stmt) ↔
      (∃ site ∈ g.dynSites, site.stmt = stmt) ∨
        ∃ args caller potential, req = .dynSite stmt args caller potential := by
  simp only [mem_dynSites_serve]
  constructor
  · rintro ⟨site, h | ⟨rfl, -⟩, rfl⟩
    · exact Or.inl ⟨site, h, rfl⟩
    · exact Or.inr ⟨_, _, _, rfl⟩
  · rintro (⟨site, h, hsite⟩ | ⟨args, caller, potential, rfl⟩)
    · exact ⟨site, Or.inl h, hsite⟩
    · by_cases hold : ∃ site ∈ g.dynSites, site.stmt = stmt
      · obtain ⟨site, h, hsite⟩ := hold
        exact ⟨site, Or.inl h, hsite⟩
      · refine ⟨⟨g.siteCount, stmt, args, caller, potential⟩, Or.inr ⟨rfl, ?_, rfl⟩, rfl⟩
        exact fun other h heq => hold ⟨other, h, heq⟩

/-! ## Nothing twice -/

/-- No method has two nodes, no ordered pair two edges and no edge a call twice; call sites are
told apart by what they are for, and their ids are those handed out. -/
structure Orderly (g : CallGraph) : Prop where
  unique : ∀ {f f' m}, g.methodOf? f = some m → g.methodOf? f' = some m → f = f'
  simple : g.Simple
  ascending : ∀ {src dst e}, g.edge? src dst = some e → ∀ kind, (e.calls kind).Pairwise (· < ·)
  sites : (g.sites.toList.map fun s => (s.stmt, s.callee)).Nodup
  dynSites : (g.dynSites.toList.map DynCallSite.stmt).Nodup
  ids : (g.sites.toList.map CallSite.id ++ g.dynSites.toList.map DynCallSite.id).Perm
    (List.range g.siteCount)

theorem orderly_empty : Orderly {} where
  unique hf := by simp [methodOf?, node?] at hf
  simple := .nil
  ascending he := by simp [edge?] at he
  sites := .nil
  dynSites := .nil
  ids := .refl _

theorem CallEdge.calls_addCall (e : CallEdge) (stmt : StmtId) (kind other : CallKind) :
    (e.addCall stmt kind).calls other =
      if other = kind then Ascending.insert stmt (e.calls other) else e.calls other := by
  cases kind <;> cases other <;> rfl

theorem siteCount_push_site (g : CallGraph) (s : CallSite) :
    ({ g with sites := g.sites.push s } : CallGraph).siteCount = g.siteCount + 1 := by
  simp only [siteCount, Array.size_push]
  omega

theorem siteCount_push_dynSite (g : CallGraph) (s : DynCallSite) :
    ({ g with dynSites := g.dynSites.push s } : CallGraph).siteCount = g.siteCount + 1 := by
  simp only [siteCount, Array.size_push]
  omega

namespace Orderly

theorem unique_serve (h : g.Orderly) (req : Request) {f f' : FuncId} {m : MethodSig}
    (hf : (g.serve req).methodOf? f = some m) (hf' : (g.serve req).methodOf? f' = some m) :
    f = f' := by
  obtain ⟨x, hx, rfl⟩ := Option.map_eq_some_iff.1 hf
  obtain ⟨x', hx', hmethod⟩ := Option.map_eq_some_iff.1 hf'
  have old {i : FuncId} {y : FuncNode} (hy : g.node? i = some y) :
      g.methodOf? i = some y.method := by rw [methodOf?, hy, Option.map_some]
  rcases (node?_serve g req).1 hx with hx | ⟨-, hnone, hsize⟩ <;>
    rcases (node?_serve g req).1 hx' with hx' | ⟨-, hnone', hsize'⟩
  · exact h.unique (old hx) (hmethod ▸ old hx')
  · exact absurd (old hx) (methodOf?_ne_of_funcId? (hmethod ▸ hnone') f)
  · exact absurd (hmethod ▸ old hx') (methodOf?_ne_of_funcId? hnone f')
  · rw [hsize, hsize']

theorem serve (h : g.Orderly) (req : Request) : (g.serve req).Orderly := by
  cases req with
  | node m kind isSdk =>
    have hedges : (g.serve (.node m kind isSdk)).edges = g.edges := by simp [CallGraph.serve]
    refine ⟨h.unique_serve _, h.simple.congr hedges, fun he => ?_, ?_, ?_, ?_⟩
    · unfold edge? at he
      rw [hedges] at he
      exact h.ascending he
    · simpa [CallGraph.serve] using h.sites
    · simpa [CallGraph.serve] using h.dynSites
    · simpa [CallGraph.serve, siteCount] using h.ids
  | call src dst stmt kind =>
    refine ⟨h.unique_serve _, h.simple.addCall src dst stmt kind, fun {s d e} he => ?_, ?_, ?_, ?_⟩
    · rw [CallGraph.serve, edge?_addCall_eq] at he
      split at he
      · cases he
        intro other
        have hold : (((g.edge? src dst).getD { src, dst }).calls other).Pairwise (· < ·) := by
          cases hold : g.edge? src dst with
          | some e => exact h.ascending hold other
          | none => cases other <;> exact .nil
        rw [CallEdge.calls_addCall]
        split
        · exact Ascending.pairwise_insert hold
        · exact hold
      · exact h.ascending he
    · simpa [CallGraph.serve] using h.sites
    · simpa [CallGraph.serve] using h.dynSites
    · simpa [CallGraph.serve, siteCount] using h.ids
  | site stmt args caller callee =>
    refine ⟨h.unique_serve _, h.simple.congr (edges_addSite ..), fun {s d e} he => ?_, ?_, ?_, ?_⟩
    · unfold edge? CallGraph.serve at he
      rw [edges_addSite] at he
      exact h.ascending he
    all_goals rw [CallGraph.serve, addSite]
    all_goals split
    · exact h.sites
    · rename_i hno
      refine nodup_push h.sites fun s hs => ?_
      simpa using Array.find?_eq_none.1 hno s hs
    · exact h.dynSites
    · exact h.dynSites
    · exact h.ids
    · rw [siteCount_push_site, List.range_succ, Array.toList_push, List.map_append,
        List.append_assoc]
      refine .trans ?_ (h.ids.append_right _)
      rw [List.append_assoc]
      exact List.perm_append_comm.append_left _
  | dynSite stmt args caller potential =>
    refine ⟨h.unique_serve _, h.simple.congr (edges_addDynSite ..), fun {s d e} he => ?_,
      ?_, ?_, ?_⟩
    · unfold edge? CallGraph.serve at he
      rw [edges_addDynSite] at he
      exact h.ascending he
    all_goals rw [CallGraph.serve, addDynSite]
    all_goals split
    · exact h.sites
    · exact h.sites
    · exact h.dynSites
    · rename_i hno
      refine nodup_push h.dynSites fun s hs => ?_
      simpa [dynSiteAt?] using Array.find?_eq_none.1 hno s hs
    · exact h.ids
    · rw [siteCount_push_dynSite, List.range_succ, Array.toList_push, List.map_append,
        ← List.append_assoc]
      exact h.ids.append_right _

theorem serveAll (h : g.Orderly) (reqs : List Request) : (g.serveAll reqs).Orderly := by
  induction reqs generalizing g with
  | nil => exact h
  | cons req reqs ih => exact ih (h.serve req)

end Orderly

/-! ## The graph that is searched -/

/-- A directed graph of ids. The ends of an edge are nodes. -/
structure SearchGraph where
  nodes : Finset FuncId := ∅
  edges : Finset (FuncId × FuncId) := ∅

namespace SearchGraph

def addEdge (s : SearchGraph) (src dst : FuncId) : SearchGraph :=
  { nodes := insert src (insert dst s.nodes), edges := insert (src, dst) s.edges }

/-- Follows a request to the call graph: a new node is a node, and the first call between two
methods an edge. -/
def follow (s : SearchGraph) (g : CallGraph) : Request → SearchGraph
  | .node m _ _ =>
    if (g.funcId? m).isSome then s else { s with nodes := insert g.nodes.size s.nodes }
  | .call src dst _ _ => if g.hasEdge src dst then s else s.addEdge src dst
  | .site .. | .dynSite .. => s

/-- Follows a sequence of requests. -/
def followAll (s : SearchGraph) (g : CallGraph) : List Request → SearchGraph
  | [] => s
  | req :: reqs => (s.follow g req).followAll (g.serve req) reqs

/-- The graph has the nodes that are known and the edges. -/
structure Mirrors (s : SearchGraph) (g : CallGraph) : Prop where
  node : ∀ f, f ∈ s.nodes ↔ g.knows f = true
  edge : ∀ src dst, (src, dst) ∈ s.edges ↔ g.hasEdge src dst = true

theorem mirrors_empty : Mirrors {} {} where
  node f := by simp [knows]
  edge src dst := by simp [hasEdge, edge?]

variable {s : SearchGraph}

theorem Mirrors.congr {g' : CallGraph} (h : s.Mirrors g) (hsize : g'.nodes.size = g.nodes.size)
    (hlinks : ∀ l, l ∈ g'.links ↔ l ∈ g.links) : s.Mirrors g' where
  node f := by simp only [h.node, knows_iff, hsize, hlinks]
  edge src dst := by rw [h.edge, hasEdge_iff_link, hasEdge_iff_link, hlinks]

theorem Mirrors.follow (h : s.Mirrors g) (req : Request) :
    (s.follow g req).Mirrors (g.serve req) := by
  cases req with
  | node m kind isSdk =>
    rw [SearchGraph.follow, serve, addNode]
    cases hm : g.funcId? m with
    | some f => exact h
    | none =>
      refine ⟨fun f => ?_, h.edge⟩
      have hlt : f < g.nodes.size + 1 ↔ f = g.nodes.size ∨ f < g.nodes.size :=
        Nat.lt_succ_iff_lt_or_eq.trans or_comm
      have hnode := h.node f
      simp only [knows_iff] at hnode ⊢
      simp only [Option.isSome_none, Bool.false_eq_true, if_false, Finset.mem_insert, hnode,
        Array.size_push, hlt, or_assoc]
      rfl
  | call src dst stmt kind =>
    rw [SearchGraph.follow, serve]
    split
    · rename_i hold
      -- The ends of an edge that is there are known.
      refine h.congr (by simp) fun l => (mem_links_addCall ..).trans (or_iff_left_of_imp ?_)
      rintro rfl
      exact hasEdge_iff_link.1 hold
    · refine ⟨fun f => ?_, fun a b => ?_⟩
      · simp only [addEdge, Finset.mem_insert, h.node, knows_iff, nodes_addCall, mem_links_addCall,
          or_and_right, exists_or, exists_eq_left, eq_comm (a := f)]
        rw [← or_assoc, or_comm, or_assoc]
      · rw [addEdge, Finset.mem_insert, h.edge, hasEdge_iff_link, hasEdge_iff_link,
          mem_links_addCall, or_comm]
  | site stmt args caller callee =>
    exact h.congr (by simp [serve]) fun l => by simp [serve, links]
  | dynSite stmt args caller potential =>
    exact h.congr (by simp [serve]) fun l => by simp [serve, links]

theorem Mirrors.followAll (h : s.Mirrors g) (reqs : List Request) :
    (s.followAll g reqs).Mirrors (g.serveAll reqs) := by
  induction reqs generalizing s g with
  | nil => exact h
  | cons req reqs ih => exact ih (h.follow req)

end SearchGraph

/-! ## Every sequence of requests -/

theorem serveAll_node {reqs more : List Request} {x : FuncNode}
    (h : (serveAll {} reqs).node? f = some x) :
    ((serveAll {} reqs).serveAll more).node? f = some x :=
  (foldl_iff_occurs (P := (node? · f = some x)) node?_serve _ more).2 (Or.inl h)

/-- Whether a method has a node tells whether it was asked for. -/
theorem exists_node_serveAll {reqs : List Request} :
    (∃ f, (serveAll {} reqs).funcId? m = some f) ↔ ∃ kind isSdk, .node m kind isSdk ∈ reqs := by
  refine (foldl_iff_exists (P := fun g : CallGraph => ∃ f, g.funcId? m = some f) exists_node_serve
    _ reqs).trans ?_
  simp only [funcId?, Array.findIdx?_empty, reduceCtorEq, exists_false, false_or]
  grind

theorem exists_site_serveAll {reqs : List Request} {callee : FuncId} :
    (∃ site ∈ (serveAll {} reqs).sites, site.stmt = stmt ∧ site.callee = callee) ↔
      ∃ args caller, .site stmt args caller callee ∈ reqs := by
  refine (foldl_iff_exists
    (P := fun g : CallGraph => ∃ site ∈ g.sites, site.stmt = stmt ∧ site.callee = callee)
    exists_site_serve _ reqs).trans ?_
  simp only [Array.not_mem_empty, false_and, exists_false, false_or]
  grind

theorem exists_dynSite_serveAll {reqs : List Request} :
    (∃ site ∈ (serveAll {} reqs).dynSites, site.stmt = stmt) ↔
      ∃ args caller potential, .dynSite stmt args caller potential ∈ reqs := by
  refine (foldl_iff_exists (P := fun g : CallGraph => ∃ site ∈ g.dynSites, site.stmt = stmt)
    exists_dynSite_serve _ reqs).trans ?_
  simp only [Array.not_mem_empty, false_and, exists_false, false_or]
  grind

/-- The first request for a method made its node. -/
theorem node?_serveAll {reqs : List Request} {x : FuncNode} :
    (serveAll {} reqs).node? f = some x ↔
      ∃ before more, reqs = before ++ .node x.method x.kind x.isSdk :: more ∧
        (∀ kind isSdk, .node x.method kind isSdk ∉ before) ∧
        f = (serveAll {} before).nodes.size := by
  refine (foldl_iff_occurs (P := (node? · f = some x)) node?_serve _ reqs).trans ?_
  have hfirst (before : List Request) : (serveAll {} before).funcId? x.method = none ↔
      ∀ kind isSdk, .node x.method kind isSdk ∉ before := by
    rw [← not_iff_not, ← ne_eq, Option.ne_none_iff_exists', exists_node_serveAll]
    push Not
    rfl
  refine (or_iff_right (by simp [node?])).trans (exists₂_congr fun before more => ?_)
  exact and_congr_right fun _ => and_congr_left fun _ => hfirst before

/-- The first request for a statement and a callee made the static site. -/
theorem mem_sites_serveAll {reqs : List Request} {site : CallSite} :
    site ∈ (serveAll {} reqs).sites ↔
      ∃ before more, reqs = before ++ .site site.stmt site.args site.caller site.callee :: more ∧
        (∀ args caller, .site site.stmt args caller site.callee ∉ before) ∧
        site.id = (serveAll {} before).siteCount := by
  refine (foldl_iff_occurs (P := (site ∈ sites ·)) mem_sites_serve _ reqs).trans ?_
  have hfirst (before : List Request) :
      (∀ other ∈ (serveAll {} before).sites,
        ¬(other.stmt = site.stmt ∧ other.callee = site.callee)) ↔
      ∀ args caller, .site site.stmt args caller site.callee ∉ before := by
    rw [← not_iff_not]
    push Not
    exact exists_site_serveAll
  refine (or_iff_right (by simp)).trans (exists₂_congr fun before more => ?_)
  exact and_congr_right fun _ => and_congr_left fun _ => hfirst before

/-- The first request for a statement made the dynamic site. -/
theorem mem_dynSites_serveAll {reqs : List Request} {site : DynCallSite} :
    site ∈ (serveAll {} reqs).dynSites ↔
      ∃ before more,
        reqs = before ++ .dynSite site.stmt site.args site.caller site.potential :: more ∧
        (∀ args caller potential, .dynSite site.stmt args caller potential ∉ before) ∧
        site.id = (serveAll {} before).siteCount := by
  refine (foldl_iff_occurs (P := (site ∈ dynSites ·)) mem_dynSites_serve _ reqs).trans ?_
  have hfirst (before : List Request) :
      (∀ other ∈ (serveAll {} before).dynSites, other.stmt ≠ site.stmt) ↔
      ∀ args caller potential, .dynSite site.stmt args caller potential ∉ before := by
    rw [← not_iff_not]
    push Not
    exact exists_dynSite_serveAll
  refine (or_iff_right (by simp)).trans (exists₂_congr fun before more => ?_)
  exact and_congr_right fun _ => and_congr_left fun _ => hfirst before

theorem hasEdge_serveAll {reqs : List Request} : (serveAll {} reqs).hasEdge src dst = true ↔
    ∃ stmt kind, .call src dst stmt kind ∈ reqs := by
  refine (foldl_iff_exists (P := (hasEdge · src dst = true)) hasEdge_serve _ reqs).trans ?_
  simp only [hasEdge, edge?, Array.find?_empty, Option.isSome_none, Bool.false_eq_true, false_or]
  grind

theorem calls_serveAll {reqs : List Request} {kind : CallKind} :
    (serveAll {} reqs).Calls src dst kind stmt ↔ .call src dst stmt kind ∈ reqs := by
  refine (foldl_iff_exists (P := (Calls · src dst kind stmt)) calls_serve _ reqs).trans ?_
  simp [Calls, edge?]

/-- What a graph says after these requests. -/
structure Booked (reqs : List Request) (g : CallGraph) : Prop where
  /-- The first request for a method made its node, at the next position. -/
  node : ∀ f x, g.node? f = some x ↔
    ∃ before more, reqs = before ++ .node x.method x.kind x.isSdk :: more ∧
      (∀ kind isSdk, .node x.method kind isSdk ∉ before) ∧
      f = (serveAll {} before).nodes.size
  dense : ∀ f, (∃ x, g.node? f = some x) ↔ f < g.nodes.size
  kept : ∀ more f x, g.node? f = some x → (g.serveAll more).node? f = some x
  /-- Methods and ids name each other. -/
  funcId : ∀ m f, g.funcId? m = some f ↔ g.methodOf? f = some m
  requested : ∀ m, (∃ f, g.funcId? m = some f) ↔ ∃ kind isSdk, .node m kind isSdk ∈ reqs
  known_node : ∀ m f kind isSdk, g.funcId? m = some f → g.addNode m kind isSdk = (f, g)
  new_node : ∀ m kind isSdk, g.funcId? m = none → (g.addNode m kind isSdk).1 = g.nodes.size
  hasEdge : ∀ src dst, g.hasEdge src dst = true ↔ ∃ stmt kind, .call src dst stmt kind ∈ reqs
  /-- There is one edge for an ordered pair. -/
  links : g.links.Nodup
  ends : ∀ src dst e, g.edge? src dst = some e → e.src = src ∧ e.dst = dst
  calls : ∀ src dst e, g.edge? src dst = some e →
    ∀ kind, (e.calls kind).Pairwise (· < ·) ∧
      ∀ stmt, stmt ∈ e.calls kind ↔ .call src dst stmt kind ∈ reqs
  addCall_new : ∀ src dst stmt kind,
    (g.addCall src dst stmt kind).1 = true ↔ g.hasEdge src dst = false
  callees : ∀ f f', f' ∈ g.callees f ↔ g.hasEdge f f' = true
  callees_sorted : ∀ f, (g.callees f).Pairwise (· < ·)
  callers : ∀ f f', f' ∈ g.callers f ↔ g.hasEdge f' f = true
  callers_sorted : ∀ f, (g.callers f).Pairwise (· < ·)
  /-- What is known is a node or an end of an edge. -/
  knows : ∀ f, g.knows f = true ↔
    f < g.nodes.size ∨ ∃ other, g.hasEdge f other = true ∨ g.hasEdge other f = true
  mirrored : (SearchGraph.followAll {} {} reqs).Mirrors g
  reachable : ∀ f f', g.reachable f f' = true ↔
    g.knows f = true ∧ g.knows f' = true ∧
      Relation.ReflTransGen (fun a b => g.hasEdge a b = true) f f'
  /-- The first request for a statement and a callee made the static site. -/
  site : ∀ s, s ∈ g.sites ↔
    ∃ before more, reqs = before ++ .site s.stmt s.args s.caller s.callee :: more ∧
      (∀ args caller, .site s.stmt args caller s.callee ∉ before) ∧
      s.id = (serveAll {} before).siteCount
  sites_unique : (g.sites.toList.map fun s => (s.stmt, s.callee)).Nodup
  sitesAt : ∀ stmt s, s ∈ g.sitesAt stmt ↔ s ∈ g.sites ∧ s.stmt = stmt
  /-- The first request for a statement made the dynamic site. -/
  dynSite : ∀ s, s ∈ g.dynSites ↔
    ∃ before more, reqs = before ++ .dynSite s.stmt s.args s.caller s.potential :: more ∧
      (∀ args caller potential, .dynSite s.stmt args caller potential ∉ before) ∧
      s.id = (serveAll {} before).siteCount
  dynSites_unique : (g.dynSites.toList.map DynCallSite.stmt).Nodup
  dynSiteAt : ∀ stmt s, g.dynSiteAt? stmt = some s ↔ s ∈ g.dynSites ∧ s.stmt = stmt
  /-- The ids handed out are the numbers below the count, each once. -/
  ids : (g.sites.toList.map CallSite.id ++ g.dynSites.toList.map DynCallSite.id).Perm
    (List.range g.siteCount)
  known_site : ∀ s ∈ g.sites, ∀ args caller, g.addSite s.stmt args caller s.callee = (s, g)
  new_site : ∀ stmt args caller callee, (∀ s ∈ g.sites, ¬(s.stmt = stmt ∧ s.callee = callee)) →
    (g.addSite stmt args caller callee).1 = { id := g.siteCount, stmt, args, caller, callee } ∧
      (g.addSite stmt args caller callee).2.siteCount = g.siteCount + 1
  known_dynSite : ∀ s ∈ g.dynSites, ∀ args caller potential,
    g.addDynSite s.stmt args caller potential = (s, g)
  new_dynSite : ∀ stmt args caller potential, (∀ s ∈ g.dynSites, s.stmt ≠ stmt) →
    (g.addDynSite stmt args caller potential).1 =
        { id := g.siteCount, stmt, args, caller, potential } ∧
      (g.addDynSite stmt args caller potential).2.siteCount = g.siteCount + 1

namespace Orderly

theorem funcId?_iff (h : g.Orderly) : g.funcId? m = some f ↔ g.methodOf? f = some m := by
  refine ⟨methodOf?_of_funcId?, fun hf => ?_⟩
  obtain ⟨f', hf'⟩ := exists_funcId?_iff.2 ⟨f, hf⟩
  rw [hf', h.unique (methodOf?_of_funcId? hf') hf]

theorem find?_site (h : g.Orderly) {s : CallSite} (hs : s ∈ g.sites) :
    g.sites.find? (fun other => other.stmt == s.stmt && other.callee == s.callee) = some s :=
  find?_of_nodup h.sites hs fun other => by simp

theorem dynSiteAt?_iff (h : g.Orderly) {s : DynCallSite} :
    g.dynSiteAt? stmt = some s ↔ s ∈ g.dynSites ∧ s.stmt = stmt := by
  constructor
  · intro hs
    exact ⟨Array.mem_of_find?_eq_some hs, by simpa using Array.find?_some hs⟩
  · rintro ⟨hs, rfl⟩
    exact find?_of_nodup h.dynSites hs fun other => by simp

end Orderly

theorem leads_iff {f' : FuncId} : Reach.Leads g.links f f' ↔
    Relation.ReflTransGen (fun a b => g.hasEdge a b = true) f f' := by
  simp only [hasEdge_iff_link]
  rfl

/-- The books of a call graph are right after every sequence of requests. -/
theorem requests_booked (reqs : List Request) : Booked reqs (serveAll {} reqs) := by
  have h : (serveAll {} reqs).Orderly := orderly_empty.serveAll reqs
  refine {
    node := fun _ _ => node?_serveAll
    dense := fun f => by simp [node?, ← Option.isSome_iff_exists]
    kept := fun _ _ _ hx => serveAll_node hx
    funcId := fun _ _ => h.funcId?_iff
    requested := fun _ => exists_node_serveAll
    known_node := fun m f kind isSdk hf => by rw [addNode, hf]
    new_node := fun m kind isSdk hf => by rw [addNode, hf]
    hasEdge := fun _ _ => hasEdge_serveAll
    links := h.simple
    ends := fun src dst e he => (edge?_eq_some_iff.1 he).elim fun _ hi => hi.2.1
    calls := fun src dst e he kind => ⟨h.ascending he kind, fun stmt => ?calls⟩
    addCall_new := fun src dst stmt kind => ?addCall
    callees := fun f f' => by rw [callees, Ascending.mem_ofList, Reach.mem_successors,
      hasEdge_iff_link]
    callees_sorted := fun f => Ascending.pairwise_ofList _
    callers := fun f f' => ?callers
    callers_sorted := fun f => Ascending.pairwise_ofList _
    knows := fun f => ?knows
    mirrored := SearchGraph.mirrors_empty.followAll reqs
    reachable := fun f f' => reachable_iff.trans (by rw [leads_iff])
    site := fun _ => mem_sites_serveAll
    sites_unique := h.sites
    sitesAt := fun stmt s => by simp [sitesAt]
    dynSite := fun _ => mem_dynSites_serveAll
    dynSites_unique := h.dynSites
    dynSiteAt := fun _ _ => h.dynSiteAt?_iff
    ids := h.ids
    known_site := fun s hs args caller => by rw [addSite, h.find?_site hs]
    new_site := fun stmt args caller callee hno => ?newSite
    known_dynSite := fun s hs args caller potential => by
      rw [addDynSite, h.dynSiteAt?_iff.2 ⟨hs, rfl⟩]
    new_dynSite := fun stmt args caller potential hno => ?newDynSite }
  case calls =>
    rw [← calls_serveAll, Calls, he]
    simp
  case addCall =>
    rw [CallGraph.hasEdge, edge?, Array.find?_eq_bind_findIdx?_getElem?, addCall]
    split
    · rename_i i hi
      obtain ⟨hlt, -⟩ := Array.findIdx?_eq_some_iff_getElem.1 hi
      simp [hi, hlt]
    · rename_i hnone
      simp [hnone]
  case callers =>
    rw [callers, Ascending.mem_ofList, Reach.mem_successors, hasEdge_iff_link]
    simp
  case knows =>
    simp only [knows_iff, hasEdge_iff_link, Prod.exists, and_or_left, exists_or]
    simp
  case newSite =>
    have hnone : (serveAll {} reqs).sites.find? (fun s => s.stmt == stmt && s.callee == callee) =
        none := Array.find?_eq_none.2 fun s hs => by simpa using hno s hs
    rw [addSite, hnone]
    exact ⟨rfl, siteCount_push_site ..⟩
  case newDynSite =>
    have hnone : (serveAll {} reqs).dynSiteAt? stmt = none :=
      Array.find?_eq_none.2 fun s hs => by simpa using hno s hs
    rw [addDynSite, hnone]
    exact ⟨rfl, siteCount_push_dynSite ..⟩

end PointsTo.CallGraph
