import Mathlib.Data.List.Nodup
import PointsTo.Analysis.Basic

/-!
# How a call graph grows

Methods keep their nodes and calls stay recorded (`Grows`). A call graph is *consistent* with a
program if no method has two nodes and only calls by name have static sites. Every graph that an
analysis starts from is consistent, whatever the calls on receivers were resolved by, and neither
nodes nor calls that are added later change that. Nor does it name methods that it does not have
(`HasTargets`).
-/

namespace PointsTo

namespace CallGraph

/-- A statement of `src` is recorded as a call of `dst` that was found in the way `kind`. -/
def Calls (g : CallGraph) (src dst : FuncId) (kind : CallKind) (stmt : StmtId) : Prop :=
  ∃ e, g.edge? src dst = some e ∧ stmt ∈ e.calls kind

/-- Some call of the statement is recorded. -/
def Labels (g : CallGraph) (stmt : StmtId) : Prop :=
  ∃ e ∈ g.edges, ∃ kind, stmt ∈ e.calls kind

theorem methodOf?_congr {g g' : CallGraph} (h : g'.nodes = g.nodes) (f : FuncId) :
    g'.methodOf? f = g.methodOf? f := by
  rw [methodOf?, node?, h]
  rfl

theorem calls_congr {g g' : CallGraph} {src dst : FuncId} {kind : CallKind} {stmt : StmtId}
    (h : g'.edges = g.edges) : g'.Calls src dst kind stmt ↔ g.Calls src dst kind stmt := by
  rw [Calls, edge?, h]
  rfl

theorem Labels.congr {g g' : CallGraph} {stmt : StmtId} (h : g.Labels stmt)
    (hedges : g.edges = g'.edges) : g'.Labels stmt := by
  unfold Labels at h ⊢
  rw [← hedges]
  exact h

/-- Every edge stands for two methods of its own. -/
def Simple (g : CallGraph) : Prop :=
  g.links.Nodup

theorem Simple.congr {g g' : CallGraph} (h : g.Simple) (hedges : g'.edges = g.edges) :
    g'.Simple := by
  unfold Simple links
  rw [hedges]
  exact h

/-- The call graph later on. Call sites are not added. -/
structure Grows (g g' : CallGraph) : Prop where
  method : ∀ {f m}, g.methodOf? f = some m → g'.methodOf? f = some m
  calls : ∀ {src dst kind stmt}, g.Calls src dst kind stmt → g'.Calls src dst kind stmt
  links : g.links ⊆ g'.links
  sites : g'.sites = g.sites
  dynSites : g'.dynSites = g.dynSites

theorem Grows.rfl {g : CallGraph} : g.Grows g :=
  ⟨fun h => h, fun h => h, fun _ h => h, .refl _, .refl _⟩

theorem Grows.trans {g₁ g₂ g₃ : CallGraph} (h : g₁.Grows g₂) (h' : g₂.Grows g₃) : g₁.Grows g₃ where
  method := fun hm => h'.method (h.method hm)
  calls := fun hc => h'.calls (h.calls hc)
  links := fun _ hl => h'.links (h.links hl)
  sites := h'.sites.trans h.sites
  dynSites := h'.dynSites.trans h.dynSites

theorem Grows.size {g g' : CallGraph} (h : g.Grows g') : g.nodes.size ≤ g'.nodes.size := by
  refine Nat.le_of_not_lt fun hlt => ?_
  have hm : g.methodOf? g'.nodes.size = some g.nodes[g'.nodes.size].method := by
    simp [methodOf?, node?, hlt]
  have hm' := h.method hm
  simp [methodOf?, node?] at hm'

/-- No method has two nodes, and only calls by name have static sites. -/
structure Consistent (p : Program) (g : CallGraph) : Prop where
  distinct : ∀ {f f' m}, g.methodOf? f = some m → g.methodOf? f' = some m → f = f'
  named : ∀ site ∈ g.sites, ∃ i, p.invokeOf? site.stmt = some i ∧ i.kind = .named

/-- At a call that is not by name there are no static sites. -/
theorem Consistent.sitesAt_eq_nil {p : Program} {g : CallGraph} (h : g.Consistent p)
    {stmt : StmtId} {i : Invoke} (hi : p.invokeOf? stmt = some i) (hk : i.kind ≠ .named) :
    g.sitesAt stmt = [] := by
  refine List.filter_eq_nil_iff.2 fun site hsite hstmt => ?_
  obtain ⟨j, hj, hkind⟩ := h.named site (Array.mem_toList_iff.1 hsite)
  rw [beq_iff_eq] at hstmt
  rw [hstmt, hi] at hj
  cases hj
  exact hk hkind

/-! ## Nodes -/

section addNode

variable (g : CallGraph) (m : MethodSig) (kind : FuncKind) (isSdk : Bool)

theorem methodOf?_of_funcId? {g : CallGraph} {m : MethodSig} {f : FuncId}
    (h : g.funcId? m = some f) : g.methodOf? f = some m := by
  obtain ⟨hlt, hm, -⟩ := Array.findIdx?_eq_some_iff_getElem.1 h
  rw [beq_iff_eq] at hm
  simp [methodOf?, node?, hlt, hm]

/-- A method without a node is the method of no node. -/
theorem methodOf?_ne_of_funcId? {g : CallGraph} {m : MethodSig} (h : g.funcId? m = none)
    (f : FuncId) : g.methodOf? f ≠ some m := by
  intro hm
  obtain ⟨node, hnode, rfl⟩ := Option.map_eq_some_iff.1 hm
  have hne := Array.findIdx?_eq_none_iff.1 h node (Array.mem_of_getElem? hnode)
  simp at hne

theorem methodOf?_addNode_self :
    (g.addNode m kind isSdk).2.methodOf? (g.addNode m kind isSdk).1 = some m := by
  unfold addNode
  split
  · rename_i f hf
    exact methodOf?_of_funcId? hf
  · simp [methodOf?, node?]

theorem addNode_grows : g.Grows (g.addNode m kind isSdk).2 := by
  unfold addNode
  split
  · exact .rfl
  · refine ⟨fun {f m'} hm => ?_, fun h => h, fun _ h => h, rfl, rfl⟩
    obtain ⟨node, hnode, rfl⟩ := Option.map_eq_some_iff.1 hm
    have hlt : f < g.nodes.size := (Array.getElem?_eq_some_iff.1 hnode).1
    unfold methodOf? node?
    rw [Array.getElem?_push_lt hlt, ← Array.getElem?_eq_getElem hlt]
    exact hm

@[simp] theorem edges_addNode : (g.addNode m kind isSdk).2.edges = g.edges := by
  unfold addNode
  split <;> rfl

variable {g m kind isSdk}

/-- A node that is new is the one asked for. -/
theorem methodOf?_addNode {f : FuncId} {m' : MethodSig}
    (h : (g.addNode m kind isSdk).2.methodOf? f = some m') :
    g.methodOf? f = some m' ∨ g.funcId? m = none ∧ m' = m ∧ f = g.nodes.size := by
  unfold addNode at h
  split at h
  · exact Or.inl h
  · rename_i hnone
    obtain ⟨node, hnode, rfl⟩ := Option.map_eq_some_iff.1 h
    unfold node? at hnode
    rw [Array.getElem?_push] at hnode
    split at hnode
    · rename_i hf
      cases hnode
      exact Or.inr ⟨hnone, rfl, hf⟩
    · exact Or.inl (by simp [methodOf?, node?, hnode])

theorem Consistent.addNode {p : Program} (h : g.Consistent p) :
    (g.addNode m kind isSdk).2.Consistent p where
  distinct := fun {f f' m'} hf hf' => by
    rcases methodOf?_addNode hf with hf | ⟨hnone, rfl, hsize⟩ <;>
      rcases methodOf?_addNode hf' with hf' | ⟨hnone', hm', hsize'⟩
    · exact h.distinct hf hf'
    · exact absurd (hm' ▸ hf) (methodOf?_ne_of_funcId? hnone' f)
    · exact absurd hf' (methodOf?_ne_of_funcId? hnone f')
    · rw [hsize, hsize']
  named := by
    rw [(g.addNode_grows m kind isSdk).sites]
    exact h.named

end addNode

/-! ## Nodes of methods that may be declared -/

section nodeFor

variable (g : CallGraph) (p : Program) (m : MethodSig) (missing : FuncKind)

theorem nodeFor_eq : ∃ kind isSdk, g.nodeFor p m missing = g.addNode m kind isSdk := by
  unfold nodeFor
  split
  · exact ⟨_, _, rfl⟩
  · exact ⟨_, _, rfl⟩

theorem methodOf?_nodeFor :
    (g.nodeFor p m missing).2.methodOf? (g.nodeFor p m missing).1 = some m := by
  obtain ⟨kind, isSdk, h⟩ := g.nodeFor_eq p m missing
  rw [h]
  exact g.methodOf?_addNode_self m kind isSdk

theorem lt_nodeFor : (g.nodeFor p m missing).1 < (g.nodeFor p m missing).2.nodes.size := by
  obtain ⟨x, hx, -⟩ := Option.map_eq_some_iff.1 (g.methodOf?_nodeFor p m missing)
  exact (Array.getElem?_eq_some_iff.1 hx).1

theorem nodeFor_grows : g.Grows (g.nodeFor p m missing).2 := by
  obtain ⟨kind, isSdk, h⟩ := g.nodeFor_eq p m missing
  rw [h]
  exact g.addNode_grows m kind isSdk

theorem edges_nodeFor : (g.nodeFor p m missing).2.edges = g.edges := by
  obtain ⟨kind, isSdk, h⟩ := g.nodeFor_eq p m missing
  rw [h, edges_addNode]

variable {g p m missing}

/-- A new node makes no call. -/
theorem calls_nodeFor {src dst : FuncId} {kind : CallKind} {stmt : StmtId} :
    (g.nodeFor p m missing).2.Calls src dst kind stmt ↔ g.Calls src dst kind stmt :=
  calls_congr (edges_nodeFor ..)

theorem Consistent.nodeFor (h : g.Consistent p) : (g.nodeFor p m missing).2.Consistent p := by
  obtain ⟨kind, isSdk, he⟩ := g.nodeFor_eq p m missing
  rw [he]
  exact h.addNode

end nodeFor

/-! ## Calls -/

/-- A change that the test does not see moves nothing. -/
theorem findIdx?_modify {α : Type} {p : α → Bool} {f : α → α} (hf : ∀ x, p (f x) = p x)
    (xs : Array α) (i : Nat) : (xs.modify i f).findIdx? p = xs.findIdx? p := by
  have hmap : (xs.modify i f).map p = xs.map p := by
    refine Array.ext_getElem? fun j => ?_
    rw [Array.getElem?_map, Array.getElem?_map, Array.getElem?_modify]
    split
    · rw [Option.map_map]
      exact congrArg (Option.map · _) (funext hf)
    · rfl
  have h := congrArg (Array.findIdx? id) hmap
  rwa [Array.findIdx?_map, Array.findIdx?_map] at h

section addCall

variable (g : CallGraph) (src dst : FuncId) (stmt : StmtId) (kind : CallKind)

@[simp] theorem CallEdge.src_addCall (e : CallEdge) : (e.addCall stmt kind).src = e.src := by
  cases kind <;> rfl

@[simp] theorem CallEdge.dst_addCall (e : CallEdge) : (e.addCall stmt kind).dst = e.dst := by
  cases kind <;> rfl

theorem CallEdge.mem_calls_addCall {e : CallEdge} {other : CallKind} {s : StmtId} :
    s ∈ (e.addCall stmt kind).calls other ↔ s ∈ e.calls other ∨ other = kind ∧ s = stmt := by
  cases kind <;> cases other <;> simp [CallEdge.addCall, CallEdge.calls, or_comm]

theorem edge?_eq_some_iff {g : CallGraph} {src dst : FuncId} {e : CallEdge} :
    g.edge? src dst = some e ↔
      ∃ i : Nat, g.edges[i]? = some e ∧ (e.src = src ∧ e.dst = dst) ∧
        ∀ j < i, ∀ e' : CallEdge, g.edges[j]? = some e' → ¬(e'.src = src ∧ e'.dst = dst) := by
  unfold edge?
  rw [Array.find?_eq_some_iff_getElem]
  simp only [Bool.and_eq_true, beq_iff_eq]
  constructor
  · rintro ⟨he, i, hi, rfl, hfirst⟩
    refine ⟨i, Array.getElem?_eq_getElem hi, he, fun j hj e' he' hboth => ?_⟩
    obtain ⟨hjlt, rfl⟩ := Array.getElem?_eq_some_iff.1 he'
    have hf := hfirst j hj
    simp [hboth.1, hboth.2] at hf
  · rintro ⟨i, hi, he, hfirst⟩
    obtain ⟨hlt, rfl⟩ := Array.getElem?_eq_some_iff.1 hi
    refine ⟨he, i, hlt, rfl, fun j hj => ?_⟩
    have hf := hfirst j hj _ (Array.getElem?_eq_getElem (Nat.lt_trans hj hlt))
    simpa [Decidable.imp_iff_not_or] using hf

/-- A call goes to the edge between its ends, which is there from then on. -/
theorem edge?_addCall_eq (s d : FuncId) : (g.addCall src dst stmt kind).2.edge? s d =
    if s = src ∧ d = dst then some (((g.edge? src dst).getD { src, dst }).addCall stmt kind)
    else g.edge? s d := by
  unfold addCall
  split
  · rename_i i hi
    obtain ⟨hlt, hends, -⟩ := Array.findIdx?_eq_some_iff_getElem.1 hi
    unfold edge?
    rw [Array.find?_eq_bind_findIdx?_getElem?, Array.find?_eq_bind_findIdx?_getElem?,
      Array.find?_eq_bind_findIdx?_getElem?, findIdx?_modify (fun e => by simp), hi]
    split
    · rename_i hsd
      rw [hsd.1, hsd.2, hi]
      simp [Array.getElem?_eq_getElem hlt, Array.getElem?_modify]
    · rename_i hsd
      refine Option.bind_congr fun j hj => ?_
      obtain ⟨hjlt, hjends, -⟩ := Array.findIdx?_eq_some_iff_getElem.1 hj
      rw [Array.getElem?_modify, if_neg]
      rintro rfl
      simp only [Bool.and_eq_true, beq_iff_eq] at hends hjends
      exact hsd ⟨hjends.1.symm.trans hends.1, hjends.2.symm.trans hends.2⟩
  · rename_i hnone
    have hold : g.edge? src dst = none :=
      Array.find?_eq_none.2 fun e he => by simpa using Array.findIdx?_eq_none_iff.1 hnone e he
    rw [hold, Option.getD_none]
    unfold edge? at hold ⊢
    rw [Array.find?_push]
    by_cases hsd : s = src ∧ d = dst
    · simp [hsd, hold]
    · have hno : (src == s && dst == d) = false := by
        simp only [Bool.and_eq_false_imp, beq_iff_eq, beq_eq_false_iff_ne]
        exact fun hs hd => hsd ⟨hs.symm, hd.symm⟩
      simp [hsd, hno]

/-- The calls that are recorded then are those before and the new one. -/
theorem calls_addCall_iff {src' dst' : FuncId} {stmt' : StmtId} {kind' : CallKind} :
    (g.addCall src dst stmt kind).2.Calls src' dst' kind' stmt' ↔
      g.Calls src' dst' kind' stmt' ∨ src' = src ∧ dst' = dst ∧ kind' = kind ∧ stmt' = stmt := by
  unfold Calls
  rw [edge?_addCall_eq]
  split
  · rename_i hends
    obtain ⟨rfl, rfl⟩ := hends
    simp only [Option.some.injEq, exists_eq_left', CallEdge.mem_calls_addCall, true_and]
    refine or_congr_left ?_
    cases g.edge? src' dst' with
    | some e => simp
    | none => cases kind' <;> simp [CallEdge.calls]
  · rename_i hends
    refine (or_iff_left ?_).symm
    rintro ⟨hsrc, hdst, -⟩
    exact hends ⟨hsrc, hdst⟩

theorem calls_addCall : (g.addCall src dst stmt kind).2.Calls src dst kind stmt :=
  (g.calls_addCall_iff src dst stmt kind).2 (Or.inr ⟨rfl, rfl, rfl, rfl⟩)

@[simp] theorem nodes_addCall : (g.addCall src dst stmt kind).2.nodes = g.nodes := by
  unfold addCall
  split <;> rfl

@[simp] theorem sites_addCall : (g.addCall src dst stmt kind).2.sites = g.sites := by
  unfold addCall
  split <;> rfl

@[simp] theorem dynSites_addCall : (g.addCall src dst stmt kind).2.dynSites = g.dynSites := by
  unfold addCall
  split <;> rfl

/-- A call is a link, and a new one comes last. -/
theorem links_addCall : (g.addCall src dst stmt kind).2.links =
    if (src, dst) ∈ g.links then g.links else g.links ++ [(src, dst)] := by
  unfold addCall
  split
  · rename_i i hi
    obtain ⟨hlt, he, -⟩ := Array.findIdx?_eq_some_iff_getElem.1 hi
    simp only [Bool.and_eq_true, beq_iff_eq] at he
    have hmem : (src, dst) ∈ g.links := List.mem_map.2 ⟨g.edges[i], by simp, by rw [he.1, he.2]⟩
    rw [if_pos hmem]
    -- The call goes to an edge that is there, so the links stay as they are.
    unfold links
    refine List.ext_getElem? fun j => ?_
    simp only [List.getElem?_map, Array.getElem?_toList, Array.getElem?_modify]
    split
    · rw [Option.map_map]
      refine congrArg (Option.map · _) (funext fun e => ?_)
      simp
    · rfl
  · rename_i hnone
    have hno : (src, dst) ∉ g.links := by
      intro hl
      obtain ⟨e, he, hends⟩ := List.mem_map.1 hl
      cases hends
      have hf := Array.findIdx?_eq_none_iff.1 hnone e (Array.mem_toList_iff.1 he)
      simp at hf
    rw [if_neg hno]
    simp [links]

theorem mem_links_addCall {l : FuncId × FuncId} :
    l ∈ (g.addCall src dst stmt kind).2.links ↔ l ∈ g.links ∨ l = (src, dst) := by
  rw [links_addCall]
  split
  · rename_i hmem
    refine ⟨Or.inl, fun h => h.elim id ?_⟩
    rintro rfl
    exact hmem
  · simp

theorem labels_addCall {s : StmtId} (h : (g.addCall src dst stmt kind).2.Labels s) :
    g.Labels s ∨ s = stmt := by
  obtain ⟨e, he, other, hs⟩ := h
  unfold addCall at he
  split at he
  · obtain ⟨j, hj⟩ := Array.getElem?_of_mem he
    rw [Array.getElem?_modify] at hj
    split at hj
    · obtain ⟨old, hold, rfl⟩ := Option.map_eq_some_iff.1 hj
      rcases (CallEdge.mem_calls_addCall stmt kind).1 hs with hs | ⟨-, rfl⟩
      · exact Or.inl ⟨old, Array.mem_of_getElem? hold, other, hs⟩
      · exact Or.inr rfl
    · exact Or.inl ⟨e, Array.mem_of_getElem? hj, other, hs⟩
  · rcases Array.mem_push.1 he with he | rfl
    · exact Or.inl ⟨e, he, other, hs⟩
    · rcases (CallEdge.mem_calls_addCall stmt kind).1 hs with hs | ⟨-, rfl⟩
      · cases other <;> cases hs
      · exact Or.inr rfl

theorem Simple.addCall {g : CallGraph} (h : g.Simple) (src dst : FuncId) (stmt : StmtId)
    (kind : CallKind) : (g.addCall src dst stmt kind).2.Simple := by
  unfold Simple
  rw [links_addCall]
  split
  · exact h
  · rename_i hno
    rw [← List.concat_eq_append]
    exact h.concat hno

/-- What labels an edge is the statement of a call. -/
theorem Labels.calls {g : CallGraph} {s : StmtId} (h : g.Labels s) (hg : g.Simple) :
    ∃ src dst kind, g.Calls src dst kind s := by
  obtain ⟨e, he, kind, hs⟩ := h
  obtain ⟨i, hi⟩ := Array.getElem?_of_mem he
  refine ⟨e.src, e.dst, kind, e, edge?_eq_some_iff.2 ⟨i, hi, ⟨rfl, rfl⟩, ?_⟩, hs⟩
  intro j hj e' he' hboth
  have hlink : g.links[j]? = g.links[i]? := by
    simp [links, hi, he', hboth.1, hboth.2]
  have hlt : j < g.links.length := by
    obtain ⟨hjlt, -⟩ := Array.getElem?_eq_some_iff.1 he'
    simpa [links] using hjlt
  exact absurd ((List.getElem?_inj hlt hg).1 hlink) (Nat.ne_of_lt hj)

theorem addCall_grows : g.Grows (g.addCall src dst stmt kind).2 where
  method := fun hm => (methodOf?_congr (nodes_addCall ..) _).trans hm
  calls := fun hc => (g.calls_addCall_iff src dst stmt kind).2 (Or.inl hc)
  links := fun _ hl => (g.mem_links_addCall src dst stmt kind).2 (Or.inl hl)
  sites := sites_addCall g src dst stmt kind
  dynSites := dynSites_addCall g src dst stmt kind

variable {g src dst stmt kind}

/-- Consistency is a matter of nodes and static sites alone. -/
theorem Consistent.congr {p : Program} {g g' : CallGraph} (h : g.Consistent p)
    (hn : g'.nodes = g.nodes) (hs : g'.sites = g.sites) : g'.Consistent p where
  distinct := fun {f f' m} hf hf' => by
    rw [methodOf?_congr hn] at hf hf'
    exact h.distinct hf hf'
  named := by
    rw [hs]
    exact h.named

theorem Consistent.addCall {p : Program} (h : g.Consistent p) :
    (g.addCall src dst stmt kind).2.Consistent p :=
  h.congr (nodes_addCall ..) (sites_addCall ..)

end addCall

/-! ## The graphs to start from -/

section seed

variable {p : Program} {g : CallGraph}

theorem Consistent.empty (p : Program) : ({} : CallGraph).Consistent p where
  distinct := fun hf => by simp [methodOf?, node?] at hf
  named := fun site hs => by simp at hs

/-- A static site may be added for a call by name. -/
theorem Consistent.addSite (h : g.Consistent p) {stmt : StmtId} {i : Invoke}
    (hi : p.invokeOf? stmt = some i) (hk : i.kind = .named) (args : List ValueId)
    (caller callee : FuncId) : (g.addSite stmt args caller callee).2.Consistent p := by
  unfold CallGraph.addSite
  split
  · exact h
  · refine ⟨h.distinct, fun site hsite => ?_⟩
    rcases Array.mem_push.1 hsite with hsite | rfl
    · exact h.named site hsite
    · exact ⟨i, hi, hk⟩

theorem Consistent.addDynSite (h : g.Consistent p) (stmt : StmtId) (args : List ValueId)
    (caller : FuncId) (potential : Option FuncId) :
    (g.addDynSite stmt args caller potential).2.Consistent p := by
  unfold CallGraph.addDynSite
  split
  · exact h
  · exact h.congr rfl rfl

theorem Consistent.addStmt (h : g.Consistent p) (caller : FuncId) (stmt : StmtId) :
    (g.addStmt p caller stmt).Consistent p := by
  unfold CallGraph.addStmt
  split
  · exact h
  · rename_i i hi
    split
    · rename_i hk
      exact h.nodeFor.addCall.addSite hi hk _ _ _
    · exact h.nodeFor.addDynSite _ _ _ _
    · exact h.nodeFor.addDynSite _ _ _ _

/-! Sites are kept beside nodes and edges. -/

section

variable (g : CallGraph) (stmt : StmtId) (args : List ValueId) (caller : FuncId)

@[simp] theorem nodes_addSite (callee : FuncId) :
    (g.addSite stmt args caller callee).2.nodes = g.nodes := by
  unfold CallGraph.addSite
  split <;> rfl

@[simp] theorem edges_addSite (callee : FuncId) :
    (g.addSite stmt args caller callee).2.edges = g.edges := by
  unfold CallGraph.addSite
  split <;> rfl

@[simp] theorem dynSites_addSite (callee : FuncId) :
    (g.addSite stmt args caller callee).2.dynSites = g.dynSites := by
  unfold CallGraph.addSite
  split <;> rfl

@[simp] theorem nodes_addDynSite (potential : Option FuncId) :
    (g.addDynSite stmt args caller potential).2.nodes = g.nodes := by
  unfold CallGraph.addDynSite
  split <;> rfl

@[simp] theorem edges_addDynSite (potential : Option FuncId) :
    (g.addDynSite stmt args caller potential).2.edges = g.edges := by
  unfold CallGraph.addDynSite
  split <;> rfl

end

theorem Simple.addStmt (h : g.Simple) (caller : FuncId) (stmt : StmtId) :
    (g.addStmt p caller stmt).Simple := by
  unfold CallGraph.addStmt
  split
  · exact h
  · split
    · exact ((h.congr (edges_nodeFor ..)).addCall ..).congr (edges_addSite ..)
    · exact (h.congr (edges_nodeFor ..)).congr (edges_addDynSite ..)
    · exact (h.congr (edges_nodeFor ..)).congr (edges_addDynSite ..)

/-- What every round of a loop keeps of the graph holds after the loop. -/
theorem foldl_invariant {α β : Type} (P : CallGraph → Prop) (graph : β → CallGraph) {f : β → α → β}
    (hf : ∀ b x, P (graph b) → P (graph (f b x))) (xs : List α) (b : β) (h : P (graph b)) :
    P (graph (xs.foldl f b)) := by
  induction xs generalizing b with
  | nil => exact h
  | cons x xs ih => exact ih _ (hf b x h)

/-- What new nodes and the calls of statements leave as it is holds of the direct graph. -/
theorem addProgram_keptByGrowth {P : CallGraph → Prop}
    (hnode : ∀ {g m missing}, P g → P (nodeFor g p m missing).2)
    (hstmt : ∀ {g caller stmt}, P g → P (addStmt p caller g stmt)) (h : P g) :
    P (g.addProgram p) := by
  refine foldl_invariant P id (fun _ m hg => ?_) _ _ (foldl_invariant P id (fun _ _ => hnode) _ _ h)
  show P (addBody p _ m)
  unfold addBody
  split
  · exact hg
  · exact foldl_invariant P id (fun _ _ => hstmt) _ _ (hnode hg)

theorem nodesFor_keptByGrowth {P : CallGraph → Prop}
    (hnode : ∀ {g m missing}, P g → P (nodeFor g p m missing).2) (missing : FuncKind)
    (ms : List MethodSig) (h : P g) : P (g.nodesFor p missing ms).2 := by
  induction ms generalizing g with
  | nil => exact h
  | cons m ms ih => exact ih (hnode h)

theorem Consistent.addProgram (h : g.Consistent p) : (g.addProgram p).Consistent p :=
  addProgram_keptByGrowth (fun h => h.nodeFor) (fun h => h.addStmt _ _) h

theorem Consistent.setEntries (h : g.Consistent p) (entries : List MethodSig) :
    (g.setEntries p entries).2.Consistent p :=
  (nodesFor_keptByGrowth (fun h => h.nodeFor) .blank entries h).congr rfl rfl

/-! ## Targets -/

theorem entries_nodeFor (g : CallGraph) (p : Program) (m : MethodSig) (missing : FuncKind) :
    (g.nodeFor p m missing).2.entries = g.entries := by
  obtain ⟨kind, isSdk, heq⟩ := g.nodeFor_eq p m missing
  rw [heq]
  unfold addNode
  split <;> rfl

theorem entries_addCall (g : CallGraph) (src dst : FuncId) (stmt : StmtId) (kind : CallKind) :
    (g.addCall src dst stmt kind).2.entries = g.entries := by
  unfold addCall
  split <;> rfl

/-- The entries, and the methods that are called by name, are methods of the graph. -/
structure HasTargets (g : CallGraph) : Prop where
  entry : ∀ f ∈ g.entries, f < g.nodes.size
  callee : ∀ site ∈ g.sites, site.callee < g.nodes.size

namespace HasTargets

theorem empty : HasTargets {} :=
  ⟨fun f hf => by simp at hf, fun site hsite => by simp at hsite⟩

theorem mono {g' : CallGraph} (h : g.HasTargets) (hsize : g.nodes.size ≤ g'.nodes.size)
    (hentries : g'.entries = g.entries) (hsites : g'.sites = g.sites) : g'.HasTargets where
  entry f hf := Nat.lt_of_lt_of_le (h.entry f (hentries ▸ hf)) hsize
  callee site hsite := Nat.lt_of_lt_of_le (h.callee site (hsites ▸ hsite)) hsize

theorem nodeFor (h : g.HasTargets) {m : MethodSig} {missing : FuncKind} :
    (g.nodeFor p m missing).2.HasTargets := by
  have hgrows := g.nodeFor_grows p m missing
  exact h.mono hgrows.size (entries_nodeFor ..) hgrows.sites

theorem addCall (h : g.HasTargets) {src dst : FuncId} {stmt : StmtId} {kind : CallKind} :
    (g.addCall src dst stmt kind).2.HasTargets :=
  h.mono (by simp) (entries_addCall ..) (sites_addCall ..)

theorem addSite (h : g.HasTargets) {callee : FuncId} (hcallee : callee < g.nodes.size)
    (stmt : StmtId) (args : List ValueId) (caller : FuncId) :
    (g.addSite stmt args caller callee).2.HasTargets := by
  unfold CallGraph.addSite
  split
  · exact h
  · refine ⟨h.entry, fun site hsite => ?_⟩
    rcases Array.mem_push.1 hsite with hsite | rfl
    · exact h.callee site hsite
    · exact hcallee

theorem addDynSite (h : g.HasTargets) (stmt : StmtId) (args : List ValueId) (caller : FuncId)
    (potential : Option FuncId) : (g.addDynSite stmt args caller potential).2.HasTargets := by
  unfold CallGraph.addDynSite
  split
  · exact h
  · exact h.mono (Nat.le_refl _) rfl rfl

theorem addStmt (h : g.HasTargets) (caller : FuncId) (stmt : StmtId) :
    (g.addStmt p caller stmt).HasTargets := by
  unfold CallGraph.addStmt
  split
  · exact h
  · rename_i i _
    split
    · refine h.nodeFor.addCall.addSite ?_ _ _ _
      rw [nodes_addCall]
      exact lt_nodeFor g p i.method .blank
    · exact h.nodeFor.addDynSite _ _ _ _
    · exact h.nodeFor.addDynSite _ _ _ _

theorem addProgram (h : g.HasTargets) : (g.addProgram p).HasTargets :=
  addProgram_keptByGrowth (fun h => h.nodeFor) (fun h => h.addStmt _ _) h

theorem nodesFor (missing : FuncKind) (ms : List MethodSig) (h : g.HasTargets) :
    (g.nodesFor p missing ms).2.HasTargets ∧ g.nodes.size ≤ (g.nodesFor p missing ms).2.nodes.size ∧
      ∀ f ∈ (g.nodesFor p missing ms).1, f < (g.nodesFor p missing ms).2.nodes.size := by
  induction ms generalizing g with
  | nil => exact ⟨h, Nat.le_refl _, fun f hf => absurd hf List.not_mem_nil⟩
  | cons m ms ih =>
    obtain ⟨htargets, hsize, hlt⟩ := ih (g := (g.nodeFor p m missing).2) h.nodeFor
    have hgrows := (g.nodeFor_grows p m missing).size
    refine ⟨htargets, Nat.le_trans hgrows hsize, fun f hf => ?_⟩
    rcases List.mem_cons.1 hf with rfl | hf
    · exact Nat.lt_of_lt_of_le (lt_nodeFor g p m missing) hsize
    · exact hlt f hf

theorem setEntries (h : g.HasTargets) (entries : List MethodSig) :
    (g.setEntries p entries).2.HasTargets :=
  have hnodes := h.nodesFor .blank entries
  ⟨hnodes.2.2, hnodes.1.callee⟩

end HasTargets

/-! ## Sites and edges -/

theorem Simple.addProgram (h : g.Simple) : (g.addProgram p).Simple :=
  addProgram_keptByGrowth (fun h => h.congr (edges_nodeFor ..)) (fun h => h.addStmt _ _) h

theorem Simple.setEntries (h : g.Simple) (entries : List MethodSig) :
    (g.setEntries p entries).2.Simple :=
  (nodesFor_keptByGrowth (P := Simple) (fun h => h.congr (edges_nodeFor ..))
    .blank entries h).congr rfl

/-- Every site is a call of the program, with what that passes. -/
structure Recorded (p : Program) (g : CallGraph) : Prop where
  site : ∀ site ∈ g.sites, ∃ i, p.invokeOf? site.stmt = some i ∧ site.args = i.args
  dynSite : ∀ site ∈ g.dynSites, ∃ i, p.invokeOf? site.stmt = some i ∧ site.args = i.args

namespace Recorded

theorem empty (p : Program) : ({} : CallGraph).Recorded p :=
  ⟨fun site hsite => by simp at hsite, fun site hsite => by simp at hsite⟩

theorem mono {g' : CallGraph} (h : g.Recorded p) (hg : g.Grows g') : g'.Recorded p where
  site site hsite := h.site site (hg.sites ▸ hsite)
  dynSite site hsite := h.dynSite site (hg.dynSites ▸ hsite)

theorem addSite (h : g.Recorded p) {stmt : StmtId} {i : Invoke} (hi : p.invokeOf? stmt = some i)
    (caller callee : FuncId) : (g.addSite stmt i.args caller callee).2.Recorded p := by
  unfold CallGraph.addSite
  split
  · exact h
  · refine ⟨fun site hsite => ?_, h.dynSite⟩
    rcases Array.mem_push.1 hsite with hsite | rfl
    · exact h.site site hsite
    · exact ⟨i, hi, rfl⟩

theorem addDynSite (h : g.Recorded p) {stmt : StmtId} {i : Invoke}
    (hi : p.invokeOf? stmt = some i) (caller : FuncId) (potential : Option FuncId) :
    (g.addDynSite stmt i.args caller potential).2.Recorded p := by
  unfold CallGraph.addDynSite
  split
  · exact h
  · refine ⟨h.site, fun site hsite => ?_⟩
    rcases Array.mem_push.1 hsite with hsite | rfl
    · exact h.dynSite site hsite
    · exact ⟨i, hi, rfl⟩

theorem addStmt (h : g.Recorded p) (caller : FuncId) (stmt : StmtId) :
    (g.addStmt p caller stmt).Recorded p := by
  unfold CallGraph.addStmt
  split
  · exact h
  · rename_i i hi
    split
    · exact ((h.mono (nodeFor_grows ..)).mono (addCall_grows ..)).addSite hi _ _
    · exact (h.mono (nodeFor_grows ..)).addDynSite hi _ _
    · exact (h.mono (nodeFor_grows ..)).addDynSite hi _ _

theorem addProgram (h : g.Recorded p) : (g.addProgram p).Recorded p :=
  addProgram_keptByGrowth (fun h => h.mono (nodeFor_grows ..)) (fun h => h.addStmt _ _) h

theorem setEntries (h : g.Recorded p) (entries : List MethodSig) :
    (g.setEntries p entries).2.Recorded p :=
  have hnodes : (g.nodesFor p .blank entries).2.Recorded p :=
    nodesFor_keptByGrowth (fun h => h.mono (nodeFor_grows ..)) .blank entries h
  ⟨hnodes.site, hnodes.dynSite⟩

end Recorded

end seed

end CallGraph

namespace Resolver

variable {p : Program} {r : Resolver} {P : CallGraph → Prop}

@[simp] theorem graph_push (r : Resolver) (f : FuncId) : (r.push f).graph = r.graph := by
  unfold push
  split <;> rfl

/-- New nodes and calls leave it as it is. -/
structure KeptByGrowth (p : Program) (P : CallGraph → Prop) : Prop where
  nodeFor : ∀ {g m missing}, P g → P (CallGraph.nodeFor g p m missing).2
  addCall : ∀ {g src dst stmt kind}, P g → P (CallGraph.addCall g src dst stmt kind).2

namespace KeptByGrowth

variable (hP : KeptByGrowth p P)
include hP

theorem connect (h : P r.graph) (caller callee : FuncId) (stmt : StmtId) (kind : CallKind) :
    P (r.connect caller callee stmt kind).graph := by
  unfold Resolver.connect
  rw [graph_push]
  exact hP.addCall h

theorem instantiate (h : P r.graph) (c : ClassSig) : P (r.instantiate c).graph := by
  unfold Resolver.instantiate
  split
  · exact h
  · exact CallGraph.foldl_invariant P Resolver.graph (fun _ _ hr => hP.connect hr ..) _ _ h

theorem enter (h : P r.graph) (f : FuncId) : P (r.enter p f).graph := by
  unfold Resolver.enter
  split
  · exact h
  · split
    · exact h
    · exact CallGraph.foldl_invariant P Resolver.graph (fun _ c hr => hP.instantiate hr c) _ _ h

theorem target {acc : List FuncId × Resolver} (h : P acc.2.graph) (caller : FuncId) (stmt : StmtId)
    (t : ClassSig × MethodSig) : P (Resolver.target p caller stmt acc t).2.graph := by
  unfold Resolver.target
  dsimp only
  split
  · exact hP.nodeFor h
  · exact hP.nodeFor h

theorem resolve (h : P r.graph) (caller : FuncId) (stmt : StmtId) :
    P (r.resolve p caller stmt).2.graph := by
  unfold Resolver.resolve
  split
  · exact h
  · split
    · exact hP.nodeFor h
    · exact CallGraph.foldl_invariant P (fun acc : List FuncId × Resolver => acc.2.graph)
        (fun _ t hacc => hP.target hacc caller stmt t) _ _ h

theorem followStmt (h : P r.graph) (caller : FuncId) (stmt : StmtId) :
    P (r.followStmt p caller stmt).graph := by
  unfold Resolver.followStmt
  split
  · exact h
  · exact CallGraph.foldl_invariant P Resolver.graph (fun _ _ hr => hP.connect hr ..) _ _
      (hP.resolve h caller stmt)

theorem expand (h : P r.graph) (f : FuncId) : P (r.expand p f).2.graph := by
  unfold Resolver.expand
  split
  · exact h
  · dsimp only
    split
    · exact h
    · exact CallGraph.foldl_invariant P Resolver.graph
        (fun _ stmt hr => hP.followStmt hr f stmt) _ _
        (hP.enter (r := { r with processed := f :: r.processed }) h f)

theorem drain (n : Nat) (h : P r.graph) : P (r.drain p n).2.graph := by
  induction n generalizing r with
  | zero => exact h
  | succ n ih =>
    unfold Resolver.drain
    split
    · exact h
    · rename_i f queue hq
      exact ih (hP.expand (r := { r with queue }) h f)

end KeptByGrowth

theorem keptByGrowth_consistent (p : Program) : KeptByGrowth p (CallGraph.Consistent p) :=
  ⟨fun h => h.nodeFor, fun h => h.addCall⟩

theorem keptByGrowth_hasTargets (p : Program) : KeptByGrowth p CallGraph.HasTargets :=
  ⟨fun h => h.nodeFor, fun h => h.addCall⟩

end Resolver

/-- What new nodes and calls leave as it is holds of every graph that an analysis starts from. -/
theorem Seed.graph_keptByGrowth {P : CallGraph → Prop} (seed : Seed) {p : Program}
    (hP : Resolver.KeptByGrowth p P) {entries : List MethodSig}
    (h : P ((CallGraph.addProgram {} p).setEntries p entries).2) : P (seed.graph p entries) := by
  cases seed with
  | direct => exact h
  | classHierarchy => exact hP.drain _ h
  | rapidTypes => exact hP.drain _ h

theorem Seed.graph_consistent (seed : Seed) (p : Program) (entries : List MethodSig) :
    (seed.graph p entries).Consistent p :=
  seed.graph_keptByGrowth (Resolver.keptByGrowth_consistent p)
    ((CallGraph.Consistent.empty p).addProgram.setEntries entries)

theorem Seed.graph_hasTargets (seed : Seed) (p : Program) (entries : List MethodSig) :
    (seed.graph p entries).HasTargets :=
  seed.graph_keptByGrowth (Resolver.keptByGrowth_hasTargets p)
    (CallGraph.HasTargets.empty.addProgram.setEntries entries)

theorem Seed.graph_simple (seed : Seed) (p : Program) (entries : List MethodSig) :
    (seed.graph p entries).Simple :=
  seed.graph_keptByGrowth ⟨fun h => h.congr (CallGraph.edges_nodeFor ..), fun h => h.addCall ..⟩
    (CallGraph.Simple.setEntries (CallGraph.Simple.addProgram (g := {}) List.nodup_nil) entries)

theorem Seed.graph_recorded (seed : Seed) (p : Program) (entries : List MethodSig) :
    (seed.graph p entries).Recorded p :=
  seed.graph_keptByGrowth ⟨fun h => h.mono (CallGraph.nodeFor_grows ..),
      fun h => h.mono (CallGraph.addCall_grows ..)⟩
    ((CallGraph.Recorded.empty p).addProgram.setEntries entries)

/-- If there is one entry, the graph has the node of its method for it. -/
theorem Seed.graph_entry (seed : Seed) (p : Program) (m : MethodSig) :
    ∃ f, (seed.graph p [m]).entries = [f] ∧ (seed.graph p [m]).methodOf? f = some m := by
  refine seed.graph_keptByGrowth (P := fun g => ∃ f, g.entries = [f] ∧ g.methodOf? f = some m)
    ⟨?_, ?_⟩ ⟨_, rfl, CallGraph.methodOf?_nodeFor ..⟩
  · rintro g m' missing ⟨f, hentries, hf⟩
    exact ⟨f, (g.entries_nodeFor ..).trans hentries, (g.nodeFor_grows ..).method hf⟩
  · rintro g src dst stmt kind ⟨f, hentries, hf⟩
    exact ⟨f, (g.entries_addCall ..).trans hentries, (g.addCall_grows ..).method hf⟩

end PointsTo
