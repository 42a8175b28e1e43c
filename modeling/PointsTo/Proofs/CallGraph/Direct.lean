import PointsTo.Proofs.CallGraph.Bookkeeping
import PointsTo.Proofs.CallGraph.Recording
import PointsTo.Proofs.CallGraph.Seeds

/-!
# What the direct call graph says

The direct call graph can be read off the program. Its first nodes are the declared methods, in
order; the others stand for methods that are called but not declared, and the first call that names
one decides its kind. The calls in the bodies get the ids of call sites in the order in which they
are written, and the calls by name are the edges (`Direct`).

A call that is recorded is not recorded again: to build the graph once more, for whatever declared
methods, changes nothing (`Direct.addDirect`).
-/

namespace PointsTo

/-- A call in the body of a method. -/
structure BodyCall where
  caller : MethodSig
  stmt : StmtId
  invoke : Invoke

namespace BodyCall

/-- The kind of the node for the method that is named, if that is not declared. -/
def missing (c : BodyCall) : FuncKind :=
  if c.invoke.kind = .named then .blank else .virtual

/-- The call names its callee, and is recorded between caller and callee in that way. -/
structure IsNamed (c : BodyCall) (stmt : StmtId) (kind : CallKind) : Prop where
  named : c.invoke.kind = .named
  stmt : c.stmt = stmt
  kind : kind = if c.invoke.method.isConstructor then .special else .direct

end BodyCall

namespace Program

/-- The calls among the statements of a method. -/
def callsAt (p : Program) (m : MethodSig) (ss : List StmtId) : List BodyCall :=
  ss.filterMap fun s => (p.invokeOf? s).map fun i => ⟨m, s, i⟩

theorem stmt_of_mem_callsAt {p : Program} {m : MethodSig} {ss : List StmtId} {c : BodyCall}
    (h : c ∈ p.callsAt m ss) : c.stmt ∈ ss := by
  obtain ⟨s, hs, hc⟩ := List.mem_filterMap.1 h
  obtain ⟨i, -, rfl⟩ := Option.map_eq_some_iff.1 hc
  exact hs

/-- The calls in all bodies: method after method, and statement after statement. -/
def bodyCalls (p : Program) : List BodyCall :=
  p.methods.toList.flatMap fun m => p.callsAt m.sig m.stmts

theorem mem_bodyCalls {p : Program} {m : MethodDecl} (hm : m ∈ p.methods) {s : StmtId}
    (hs : s ∈ m.stmts) {i : Invoke} (hi : p.invokeOf? s = some i) :
    ⟨m.sig, s, i⟩ ∈ p.bodyCalls := by
  refine List.mem_flatMap.2 ⟨m, Array.mem_toList_iff.2 hm, List.mem_filterMap.2 ⟨s, hs, ?_⟩⟩
  rw [hi]
  rfl

end Program

/-- A loop of which no round changes anything. -/
theorem foldl_again {α β : Type} {f : β → α → β} {b : β} {xs : List α}
    (h : ∀ x ∈ xs, f b x = b) : xs.foldl f b = b := by
  induction xs with
  | nil => rfl
  | cons x xs ih =>
    rw [List.foldl_cons, h x List.mem_cons_self]
    exact ih fun y hy => h y (List.mem_cons_of_mem _ hy)

namespace CallGraph

variable {p : Program} {g g' : CallGraph} {cs : List BodyCall} {c : BodyCall} {m : MethodSig}
  {src dst f : FuncId} {stmt : StmtId} {kind : CallKind} {i : Invoke}

/-- The nodes of the method that makes the call and of the one that it names. -/
structure Between (g : CallGraph) (c : BodyCall) (src dst : FuncId) : Prop where
  caller : g.methodOf? src = some c.caller
  callee : g.methodOf? dst = some c.invoke.method

/-- The call has one site, and `k` is its id: a static one with the callee, if it is by name, else a
dynamic one with the method that it names. -/
structure HasSite (g : CallGraph) (k : CallSiteId) (c : BodyCall) (src dst : FuncId) : Prop where
  static : g.sitesAt c.stmt = if c.invoke.kind = .named then
    [{ id := k, stmt := c.stmt, args := c.invoke.args, caller := src, callee := dst }] else []
  dynamic : g.dynSiteAt? c.stmt = if c.invoke.kind = .named then none else
    some { id := k, stmt := c.stmt, args := c.invoke.args, caller := src, potential := some dst }

/-- The node stands for a method that is not declared. The first of the calls that names it decides
its kind. -/
structure IsPlaceholder (p : Program) (cs : List BodyCall) (x : FuncNode) : Prop where
  undeclared : p.method? x.method = none
  isSdk : x.isSdk = true
  first : ∃ before c more, cs = before ++ c :: more ∧ c.invoke.method = x.method ∧
    (∀ b ∈ before, b.invoke.method ≠ x.method) ∧ x.kind = c.missing

/-- The graph has the declared methods, and the calls `cs` and no others. -/
structure Direct (p : Program) (cs : List BodyCall) (g : CallGraph) : Prop where
  /-- No method has two nodes, no pair of methods two edges, no statement is recorded twice. -/
  orderly : g.Orderly
  entries : g.entries = []
  declared : ∀ (k : Nat) decl, p.methods[k]? = some decl →
    g.node? k = some { method := decl.sig, kind := kindOf decl, isSdk := p.isSdkMethod decl.sig }
  placeholder : ∀ f x, g.node? f = some x → p.methods.size ≤ f → IsPlaceholder p cs x
  /-- The ids of the sites follow the order of the calls. -/
  site : ∀ (k : Nat) c, cs[k]? = some c → ∃ src dst, g.Between c src dst ∧ g.HasSite k c src dst
  siteCount : g.siteCount = cs.length
  noSite : ∀ stmt, (∀ c ∈ cs, c.stmt ≠ stmt) → g.sitesAt stmt = [] ∧ g.dynSiteAt? stmt = none
  edge : ∀ src dst, g.hasEdge src dst = true ↔
    ∃ c ∈ cs, c.invoke.kind = .named ∧ g.Between c src dst
  calls : ∀ src dst kind stmt, g.Calls src dst kind stmt ↔
    ∃ c ∈ cs, c.IsNamed stmt kind ∧ g.Between c src dst

/-! ## What is recorded already -/

/-- A call that is recorded is not recorded again. -/
theorem addCall_of_calls (hg : g.Orderly) (h : g.Calls src dst kind stmt) :
    (g.addCall src dst stmt kind).2 = g := by
  obtain ⟨e, he, hstmt⟩ := h
  have hsame : e.addCall stmt kind = e := by
    have hins := Ascending.insert_of_mem (hg.ascending he kind) hstmt
    cases kind <;> simp only [CallEdge.calls] at hins <;> simp only [CallEdge.addCall, hins]
  rw [HasCallOnce.addCall_eq ⟨e, he, hsame⟩]

theorem addSite_of_mem {s : CallSite} (hg : g.Orderly) (hs : s ∈ g.sites) (args : List ValueId)
    (caller : FuncId) : (g.addSite s.stmt args caller s.callee).2 = g := by
  rw [addSite, hg.find?_site hs]

theorem addDynSite_of_isDynamic (h : g.IsDynamic stmt) (args : List ValueId) (caller : FuncId)
    (potential : Option FuncId) : (g.addDynSite stmt args caller potential).2 = g := by
  obtain ⟨s, hs⟩ := Option.isSome_iff_exists.1 h
  rw [addDynSite, hs]

/-! ## New sites -/

theorem addSite_new (h : g.sitesAt stmt = []) (args : List ValueId) (caller callee : FuncId) :
    (g.addSite stmt args caller callee).2 =
      { g with sites := g.sites.push { id := g.siteCount, stmt, args, caller, callee } } := by
  have hnone : g.sites.find? (fun s => s.stmt == stmt && s.callee == callee) = none := by
    refine Array.find?_eq_none.2 fun s hs hboth => ?_
    have hno := List.filter_eq_nil_iff.1 h s (Array.mem_toList_iff.2 hs)
    rw [Bool.and_eq_true] at hboth
    exact hno hboth.1
  rw [addSite, hnone]

/-- A new static site is one of its statement. -/
theorem sitesAt_addSite (h : g.sitesAt stmt = []) (args : List ValueId) (caller callee : FuncId)
    (s : StmtId) : (g.addSite stmt args caller callee).2.sitesAt s =
      if s = stmt then [{ id := g.siteCount, stmt, args, caller, callee }] else g.sitesAt s := by
  rw [addSite_new h]
  unfold sitesAt at h ⊢
  rw [Array.toList_push, List.filter_append]
  by_cases hs : s = stmt
  · subst hs
    simp [h]
  · have hne : stmt ≠ s := fun heq => hs heq.symm
    simp [hs, hne]

theorem dynSiteAt?_addDynSite (h : g.dynSiteAt? stmt = none) (args : List ValueId)
    (caller : FuncId) (potential : Option FuncId) (s : StmtId) :
    (g.addDynSite stmt args caller potential).2.dynSiteAt? s =
      if s = stmt then some { id := g.siteCount, stmt, args, caller, potential }
      else g.dynSiteAt? s := by
  rw [addDynSite, h]
  unfold dynSiteAt? at h ⊢
  rw [Array.find?_push]
  by_cases hs : s = stmt
  · subst hs
    simp [h]
  · have hne : stmt ≠ s := fun heq => hs heq.symm
    simp [hs, hne]

theorem addStmt_of_named (hi : p.invokeOf? stmt = some i) (hkind : i.kind = .named) :
    g.addStmt p src stmt =
      let callee := (g.nodeFor p i.method .blank).1
      (((g.nodeFor p i.method .blank).2.addCall src callee stmt (callKind i)).2.addSite stmt i.args
        src callee).2 := by
  unfold addStmt
  rw [hi]
  dsimp only
  rw [hkind]

theorem addStmt_of_not_named (hi : p.invokeOf? stmt = some i) (hkind : i.kind ≠ .named) :
    g.addStmt p src stmt =
      ((g.nodeFor p i.method .virtual).2.addDynSite stmt i.args src
        (some (g.nodeFor p i.method .virtual).1)).2 := by
  unfold addStmt
  rw [hi]
  dsimp only
  split
  · rename_i hnamed
    exact absurd hnamed hkind
  · rfl
  · rfl

/-! ## One call more -/

theorem node?_nodeFor {x : FuncNode} (hx : g.node? f = some x) (p : Program) (m : MethodSig)
    (missing : FuncKind) : (g.nodeFor p m missing).2.node? f = some x := by
  obtain ⟨kind, isSdk, heq⟩ := g.nodeFor_eq p m missing
  rw [heq]
  exact (node?_serve g (.node m kind isSdk)).2 (Or.inl hx)

theorem Orderly.nodeFor (h : g.Orderly) (p : Program) (m : MethodSig) (missing : FuncKind) :
    (g.nodeFor p m missing).2.Orderly := by
  obtain ⟨kind, isSdk, heq⟩ := g.nodeFor_eq p m missing
  rw [heq]
  exact h.serve (.node m kind isSdk)

theorem Between.mono (h : g.Between c src dst) (hg : ∀ f m, g.methodOf? f = some m →
    g'.methodOf? f = some m) : g'.Between c src dst :=
  ⟨hg _ _ h.caller, hg _ _ h.callee⟩

namespace Direct

/-- The nodes of every call are there. -/
theorem between (h : g.Direct p cs) (hc : c ∈ cs) : ∃ src dst, g.Between c src dst := by
  obtain ⟨k, hk⟩ := List.getElem?_of_mem hc
  obtain ⟨src, dst, hbetween, -⟩ := h.site k c hk
  exact ⟨src, dst, hbetween⟩

theorem has_declared (h : g.Direct p cs) {decl : MethodDecl} (hm : p.method? m = some decl) :
    g.Has m := by
  obtain ⟨k, hk⟩ := Array.getElem?_of_mem (Array.mem_of_find?_eq_some hm)
  refine ⟨k, ?_⟩
  rw [methodOf?, h.declared k decl hk, Option.map_some, Program.sig_of_method? hm]

/-- Only a method that is not declared and was not called gets a new node. -/
theorem nodeFor (h : g.Direct p cs) (m : MethodSig) (missing : FuncKind) {f : FuncId} {x : FuncNode}
    (hx : (g.nodeFor p m missing).2.node? f = some x) : g.node? f = some x ∨
      f = g.nodes.size ∧ x = { method := m, kind := missing, isSdk := true } ∧
        p.method? m = none ∧ ∀ c ∈ cs, c.invoke.method ≠ m := by
  unfold CallGraph.nodeFor at hx
  split at hx
  · rename_i decl hdecl
    rcases (node?_serve g (.node m (kindOf decl) (p.isSdkMethod m))).1 hx with hx | ⟨heq, hnone, -⟩
    · exact Or.inl hx
    · rw [← (Request.node.inj heq).1] at hnone
      obtain ⟨f', hf'⟩ := h.has_declared hdecl
      exact absurd hf' (methodOf?_ne_of_funcId? hnone f')
  · rename_i hdecl
    rcases (node?_serve g (.node m missing true)).1 hx with hx | ⟨heq, hnone, hf⟩
    · exact Or.inl hx
    · obtain ⟨hmethod, hkind, hsdk⟩ := Request.node.inj heq
      rw [← hmethod] at hnone
      refine Or.inr ⟨hf, by rw [hmethod, hkind, hsdk], hdecl, fun c hc hcm => ?_⟩
      obtain ⟨_, dst, hbetween⟩ := h.between hc
      rw [← hcm] at hnone
      exact methodOf?_ne_of_funcId? hnone dst hbetween.callee

end Direct

/-- What the statement of the call `c` changes. -/
structure AddsCall (p : Program) (g g' : CallGraph) (c : BodyCall) (src dst : FuncId) : Prop where
  orderly : g'.Orderly
  entries : g'.entries = g.entries
  nodes : g'.nodes = (g.nodeFor p c.invoke.method c.missing).2.nodes
  between : g'.Between c src dst
  site : g'.HasSite g.siteCount c src dst
  siteCount : g'.siteCount = g.siteCount + 1
  others : ∀ s ≠ c.stmt, g'.sitesAt s = g.sitesAt s ∧ g'.dynSiteAt? s = g.dynSiteAt? s
  edge : ∀ a b, g'.hasEdge a b = true ↔
    g.hasEdge a b = true ∨ c.invoke.kind = .named ∧ a = src ∧ b = dst
  calls : ∀ a b kind s, g'.Calls a b kind s ↔
    g.Calls a b kind s ∨ c.IsNamed s kind ∧ a = src ∧ b = dst

theorem hasEdge_congr (h : g'.edges = g.edges) : g'.hasEdge src dst = g.hasEdge src dst := by
  rw [hasEdge, edge?, h]
  rfl

/-- A call by name makes the edge, if it is not there, and a static site. -/
theorem addStmt_addsCall_named (hg : g.Orderly) (hi : p.invokeOf? stmt = some i)
    (hkind : i.kind = .named) (hsrc : g.methodOf? src = some m) (hstatic : g.sitesAt stmt = [])
    (hdynamic : g.dynSiteAt? stmt = none) :
    AddsCall p g (g.addStmt p src stmt) ⟨m, stmt, i⟩ src (g.nodeFor p i.method .blank).1 := by
  have hgrows : g.Grows (g.nodeFor p i.method .blank).2 := g.nodeFor_grows p i.method .blank
  have hcallee := g.methodOf?_nodeFor p i.method .blank
  have horderly : (g.nodeFor p i.method .blank).2.Orderly := hg.nodeFor p i.method .blank
  have hentries := g.entries_nodeFor p i.method .blank
  have hedges := g.edges_nodeFor p i.method .blank
  have hmissing : (⟨m, stmt, i⟩ : BodyCall).missing = .blank := if_pos hkind
  rw [addStmt_of_named hi hkind]
  dsimp only
  generalize hmade : g.nodeFor p i.method .blank = made at *
  obtain ⟨dst, g₁⟩ := made
  dsimp only at *
  have hcall : callKind i = if i.method.isConstructor then .special else .direct := by
    rw [callKind, hkind]
  -- The graph between the edge and the site.
  obtain ⟨g₂, hg₂⟩ : ∃ g₂, g₂ = (g₁.addCall src dst stmt (callKind i)).2 := ⟨_, rfl⟩
  have horderly₂ : g₂.Orderly := hg₂ ▸ horderly.serve (.call src dst stmt (callKind i))
  have hnodes₂ : g₂.nodes = g₁.nodes := hg₂ ▸ nodes_addCall ..
  have hsites₂ : g₂.sites = g.sites := hg₂ ▸ (sites_addCall ..).trans hgrows.sites
  have hdynSites₂ : g₂.dynSites = g.dynSites := hg₂ ▸ (dynSites_addCall ..).trans hgrows.dynSites
  have hcount₂ : g₂.siteCount = g.siteCount := by rw [siteCount, siteCount, hsites₂, hdynSites₂]
  have hstatic₂ : ∀ s, g₂.sitesAt s = g.sitesAt s := fun s => by rw [sitesAt, sitesAt, hsites₂]
  have hdynamic₂ : ∀ s, g₂.dynSiteAt? s = g.dynSiteAt? s := fun s => by
    rw [dynSiteAt?, dynSiteAt?, hdynSites₂]
  have hnone : g₂.sitesAt stmt = [] := (hstatic₂ stmt).trans hstatic
  rw [← hg₂]
  have hdynamic₃ : ∀ s, (g₂.addSite stmt i.args src dst).2.dynSiteAt? s = g.dynSiteAt? s :=
    fun s => by rw [dynSiteAt?, dynSites_addSite, ← hdynamic₂ s, dynSiteAt?]
  refine {
    orderly := horderly₂.serve (.site stmt i.args src dst)
    entries := ?_
    nodes := by rw [hmissing, hmade, nodes_addSite, hnodes₂]
    between := ⟨?_, ?_⟩
    site := ⟨?_, ?_⟩
    siteCount := ?_
    others := fun s hs => ⟨?_, hdynamic₃ s⟩
    edge := fun a b => ?_
    calls := fun a b kind s => ?_ }
  · rw [addSite_new hnone, hg₂]
    exact (entries_addCall ..).trans hentries
  · rw [methodOf?_congr (nodes_addSite ..), methodOf?_congr hnodes₂]
    exact hgrows.method hsrc
  · rw [methodOf?_congr (nodes_addSite ..), methodOf?_congr hnodes₂]
    exact hcallee
  · rw [sitesAt_addSite hnone, if_pos rfl, if_pos hkind, hcount₂]
  · rw [hdynamic₃, if_pos hkind]
    exact hdynamic
  · rw [addSite_new hnone, siteCount_push_site, hcount₂]
  · rw [sitesAt_addSite hnone, if_neg hs, hstatic₂]
  · rw [hasEdge_congr (edges_addSite ..), hg₂]
    refine (hasEdge_serve g₁ (.call src dst stmt (callKind i))).trans ?_
    rw [hasEdge_congr hedges]
    refine or_congr_right ⟨?_, ?_⟩
    · rintro ⟨s, kind, ⟨⟩⟩
      exact ⟨hkind, rfl, rfl⟩
    · rintro ⟨-, rfl, rfl⟩
      exact ⟨_, _, rfl⟩
  · rw [calls_congr (edges_addSite ..), hg₂]
    refine (calls_serve g₁ (.call src dst stmt (callKind i))).trans ?_
    rw [calls_congr hedges, hcall]
    refine or_congr_right ⟨?_, ?_⟩
    · rintro ⟨⟩
      exact ⟨⟨hkind, rfl, rfl⟩, rfl, rfl⟩
    · rintro ⟨⟨-, rfl, rfl⟩, rfl, rfl⟩
      rfl

/-- Any other call makes a dynamic site and no edge. -/
theorem addStmt_addsCall_other (hg : g.Orderly) (hi : p.invokeOf? stmt = some i)
    (hkind : i.kind ≠ .named) (hsrc : g.methodOf? src = some m) (hstatic : g.sitesAt stmt = [])
    (hdynamic : g.dynSiteAt? stmt = none) :
    AddsCall p g (g.addStmt p src stmt) ⟨m, stmt, i⟩ src (g.nodeFor p i.method .virtual).1 := by
  have hgrows : g.Grows (g.nodeFor p i.method .virtual).2 := g.nodeFor_grows p i.method .virtual
  have hcallee := g.methodOf?_nodeFor p i.method .virtual
  have horderly : (g.nodeFor p i.method .virtual).2.Orderly := hg.nodeFor p i.method .virtual
  have hentries := g.entries_nodeFor p i.method .virtual
  have hedges := g.edges_nodeFor p i.method .virtual
  have hmissing : (⟨m, stmt, i⟩ : BodyCall).missing = .virtual := if_neg hkind
  rw [addStmt_of_not_named hi hkind]
  generalize hmade : g.nodeFor p i.method .virtual = made at *
  obtain ⟨dst, g₁⟩ := made
  dsimp only at *
  have hcount : g₁.siteCount = g.siteCount := by
    rw [siteCount, siteCount, hgrows.sites, hgrows.dynSites]
  have hdynamic₁ : ∀ s, g₁.dynSiteAt? s = g.dynSiteAt? s := fun s => by
    rw [dynSiteAt?, dynSiteAt?, hgrows.dynSites]
  have hnone : g₁.dynSiteAt? stmt = none := (hdynamic₁ stmt).trans hdynamic
  have hstatic₂ : ∀ s, (g₁.addDynSite stmt i.args src (some dst)).2.sitesAt s = g.sitesAt s :=
    fun s => by rw [sitesAt, sites_addDynSite, hgrows.sites, sitesAt]
  refine {
    orderly := horderly.serve (.dynSite stmt i.args src (some dst))
    entries := ?_
    nodes := by rw [hmissing, hmade, nodes_addDynSite]
    between := ⟨?_, ?_⟩
    site := ⟨?_, ?_⟩
    siteCount := ?_
    others := fun s hs => ⟨hstatic₂ s, ?_⟩
    edge := fun a b => ?_
    calls := fun a b kind s => ?_ }
  · rw [addDynSite, hnone]
    exact hentries
  · rw [methodOf?_congr (nodes_addDynSite ..)]
    exact hgrows.method hsrc
  · rw [methodOf?_congr (nodes_addDynSite ..)]
    exact hcallee
  · rw [hstatic₂, if_neg hkind]
    exact hstatic
  · rw [dynSiteAt?_addDynSite hnone, if_pos rfl, if_neg hkind, hcount]
  · rw [addDynSite, hnone, siteCount_push_dynSite, hcount]
  · rw [dynSiteAt?_addDynSite hnone, if_neg hs, hdynamic₁]
  · rw [hasEdge_congr ((edges_addDynSite ..).trans hedges)]
    simp [hkind]
  · rw [calls_congr ((edges_addDynSite ..).trans hedges)]
    exact (or_iff_left fun h => hkind h.1.named).symm

theorem exists_addStmt_addsCall (hg : g.Orderly) (hi : p.invokeOf? stmt = some i)
    (hsrc : g.methodOf? src = some m) (hstatic : g.sitesAt stmt = [])
    (hdynamic : g.dynSiteAt? stmt = none) :
    ∃ dst, AddsCall p g (g.addStmt p src stmt) ⟨m, stmt, i⟩ src dst := by
  by_cases hkind : i.kind = .named
  · exact ⟨_, addStmt_addsCall_named hg hi hkind hsrc hstatic hdynamic⟩
  · exact ⟨_, addStmt_addsCall_other hg hi hkind hsrc hstatic hdynamic⟩

namespace AddsCall

theorem node (h : AddsCall p g g' c src dst) {x : FuncNode} (hx : g.node? f = some x) :
    g'.node? f = some x := by
  rw [node?, h.nodes]
  exact node?_nodeFor hx p c.invoke.method c.missing

theorem method (h : AddsCall p g g' c src dst) (f : FuncId) (m : MethodSig)
    (hm : g.methodOf? f = some m) : g'.methodOf? f = some m := by
  obtain ⟨x, hx, rfl⟩ := Option.map_eq_some_iff.1 hm
  rw [methodOf?, h.node hx]
  rfl

theorem between_iff_of_eq (h : AddsCall p g g' c src dst) {a b : FuncId} :
    g'.Between c a b ↔ a = src ∧ b = dst := by
  constructor
  · intro hab
    exact ⟨h.orderly.unique hab.caller h.between.caller,
      h.orderly.unique hab.callee h.between.callee⟩
  · rintro ⟨rfl, rfl⟩
    exact h.between

/-- The nodes of the other calls are the same ones. -/
theorem between_iff (h : AddsCall p g g' c src dst) (hg : g.Direct p cs) {b : BodyCall}
    (hb : b ∈ cs) {a a' : FuncId} : g'.Between b a a' ↔ g.Between b a a' := by
  obtain ⟨x, y, hxy⟩ := hg.between hb
  refine ⟨fun h' => ?_, fun h' => h'.mono h.method⟩
  have hcaller : a = x := h.orderly.unique h'.caller (h.method _ _ hxy.caller)
  have hcallee : a' = y := h.orderly.unique h'.callee (h.method _ _ hxy.callee)
  rw [hcaller, hcallee]
  exact hxy

/-- A call between two nodes is one of those before, or the new one. -/
theorem exists_call_iff (h : AddsCall p g g' c src dst) (hg : g.Direct p cs) {Q : BodyCall → Prop}
    {a a' : FuncId} : (∃ b ∈ cs ++ [c], Q b ∧ g'.Between b a a') ↔
      (∃ b ∈ cs, Q b ∧ g.Between b a a') ∨ Q c ∧ a = src ∧ a' = dst := by
  simp only [List.mem_append, List.mem_singleton, or_and_right, exists_or, exists_eq_left,
    h.between_iff_of_eq]
  refine or_congr_left (exists_congr fun b => ?_)
  exact and_congr_right fun hb => and_congr_right fun _ => h.between_iff hg hb

theorem placeholder (h : AddsCall p g g' c src dst) (hg : g.Direct p cs) {x : FuncNode}
    (hx : g'.node? f = some x) (hf : p.methods.size ≤ f) : IsPlaceholder p (cs ++ [c]) x := by
  rw [node?, h.nodes] at hx
  rcases hg.nodeFor _ _ hx with hold | ⟨-, rfl, hundeclared, hfirst⟩
  · obtain ⟨hundeclared, hsdk, before, b, more, rfl, hb, hfirst, hkind⟩ :=
      hg.placeholder f x hold hf
    refine ⟨hundeclared, hsdk, before, b, more ++ [c], ?_, hb, hfirst, hkind⟩
    rw [List.append_assoc, List.cons_append]
  · exact ⟨hundeclared, rfl, cs, c, [], rfl, rfl, hfirst, rfl⟩

/-- One call more is recorded. -/
theorem direct (h : AddsCall p g g' c src dst) (hg : g.Direct p cs)
    (hnew : ∀ b ∈ cs, b.stmt ≠ c.stmt) : g'.Direct p (cs ++ [c]) where
  orderly := h.orderly
  entries := h.entries.trans hg.entries
  declared k decl hdecl := h.node (hg.declared k decl hdecl)
  placeholder f x hx hf := h.placeholder hg hx hf
  site k b hb := by
    rcases Nat.lt_or_ge k cs.length with hk | hk
    · rw [List.getElem?_append_left hk] at hb
      obtain ⟨a, a', hbetween, hstatic, hdynamic⟩ := hg.site k b hb
      have hother := h.others b.stmt (hnew b (List.mem_of_getElem? hb))
      exact ⟨a, a', hbetween.mono h.method, hother.1.trans hstatic, hother.2.trans hdynamic⟩
    · rw [List.getElem?_append_right hk] at hb
      obtain ⟨hlt, hget⟩ := List.getElem?_eq_some_iff.1 hb
      rw [List.length_singleton] at hlt
      have hk' : k = g.siteCount := by
        rw [hg.siteCount]
        omega
      have hbc : b = c := by
        rw [← hget]
        simp
      subst hbc hk'
      exact ⟨src, dst, h.between, h.site⟩
  siteCount := by rw [h.siteCount, hg.siteCount, List.length_append, List.length_singleton]
  noSite s hs := by
    have hother := h.others s fun heq => hs c (by simp) heq.symm
    rw [hother.1, hother.2]
    exact hg.noSite s fun b hb => hs b (List.mem_append_left _ hb)
  edge a a' := by rw [h.edge, hg.edge, h.exists_call_iff hg]
  calls a a' kind s := by rw [h.calls, hg.calls, h.exists_call_iff hg]

end AddsCall

/-! ## The whole program -/

namespace Direct

theorem addStmt (h : g.Direct p cs) (hsrc : g.methodOf? src = some m)
    (hnew : ∀ b ∈ cs, b.stmt ≠ stmt) :
    (g.addStmt p src stmt).Direct p (cs ++ p.callsAt m [stmt]) ∧
      (g.addStmt p src stmt).methodOf? src = some m := by
  cases hi : p.invokeOf? stmt with
  | none =>
    have hskip : g.addStmt p src stmt = g := by
      rw [CallGraph.addStmt, hi]
    have hcalls : p.callsAt m [stmt] = [] := by simp [Program.callsAt, hi]
    rw [hskip, hcalls, List.append_nil]
    exact ⟨h, hsrc⟩
  | some i =>
    obtain ⟨hstatic, hdynamic⟩ := h.noSite stmt hnew
    obtain ⟨dst, hnotes⟩ := exists_addStmt_addsCall h.orderly hi hsrc hstatic hdynamic
    have hcalls : p.callsAt m [stmt] = [⟨m, stmt, i⟩] := by simp [Program.callsAt, hi]
    rw [hcalls]
    exact ⟨hnotes.direct h hnew, hnotes.between.caller⟩

theorem addStmts {ss : List StmtId} (h : g.Direct p cs) (hsrc : g.methodOf? src = some m)
    (hnodup : ss.Nodup) (hnew : ∀ s ∈ ss, ∀ b ∈ cs, b.stmt ≠ s) :
    (ss.foldl (CallGraph.addStmt p src) g).Direct p (cs ++ p.callsAt m ss) := by
  induction ss generalizing g cs with
  | nil =>
    rw [Program.callsAt, List.filterMap_nil, List.append_nil]
    exact h
  | cons s ss ih =>
    obtain ⟨hs, hnodup⟩ := List.nodup_cons.1 hnodup
    obtain ⟨hone, hsrc'⟩ := h.addStmt hsrc (hnew s List.mem_cons_self)
    have hcalls : p.callsAt m (s :: ss) = p.callsAt m [s] ++ p.callsAt m ss := by
      rw [Program.callsAt, ← List.singleton_append, List.filterMap_append]
      rfl
    rw [List.foldl_cons, hcalls, ← List.append_assoc]
    refine ih hone hsrc' hnodup fun s' hs' b hb => ?_
    rcases List.mem_append.1 hb with hb | hb
    · exact hnew s' (List.mem_cons_of_mem _ hs') b hb
    · rintro rfl
      rw [List.mem_singleton.1 (Program.stmt_of_mem_callsAt hb)] at hs'
      exact hs hs'

theorem nodeFor_of_declared (h : g.Direct p cs) {decl : MethodDecl}
    (hm : p.method? m = some decl) (missing : FuncKind) :
    (g.nodeFor p m missing).2 = g ∧ g.methodOf? (g.nodeFor p m missing).1 = some m := by
  have hsame := nodeFor_of_has (p := p) (h.has_declared hm) missing
  have hmethod := g.methodOf?_nodeFor p m missing
  rw [hsame] at hmethod
  exact ⟨hsame, hmethod⟩

theorem addBody (h : g.Direct p cs) (hp : p.Listed) {decl : MethodDecl} (hdecl : decl ∈ p.methods)
    (hnew : ∀ s ∈ decl.stmts, ∀ b ∈ cs, b.stmt ≠ s) :
    (g.addBody p decl.sig).Direct p (cs ++ p.callsAt decl.sig decl.stmts) := by
  have hm : p.method? decl.sig = some decl := hp.method?_iff.2 ⟨hdecl, rfl⟩
  obtain ⟨hsame, hsrc⟩ := h.nodeFor_of_declared hm .blank
  unfold CallGraph.addBody
  rw [hm]
  dsimp only
  rw [hsame]
  exact h.addStmts hsrc (hp.wrote decl hdecl).nodup hnew

/-- The bodies of all methods, after those of some. -/
theorem addBodies (hp : p.Listed) {done more : List MethodDecl}
    (hsplit : p.methods.toList = done ++ more)
    (h : g.Direct p (done.flatMap fun m => p.callsAt m.sig m.stmts)) :
    ((more.map MethodDecl.sig).foldl (CallGraph.addBody p) g).Direct p p.bodyCalls := by
  induction more generalizing g done with
  | nil =>
    rw [Program.bodyCalls, hsplit, List.append_nil]
    exact h
  | cons decl more ih =>
    have hdecl : decl ∈ p.methods := by
      rw [← Array.mem_toList_iff, hsplit]
      simp
    have hsplit' : p.methods.toList = (done ++ [decl]) ++ more := by
      rw [hsplit, List.append_assoc, List.singleton_append]
    refine ih hsplit' ?_
    rw [List.flatMap_append, List.flatMap_singleton]
    refine h.addBody hp hdecl fun s hs b hb heq => ?_
    obtain ⟨m, hm, hb⟩ := List.mem_flatMap.1 hb
    have hsm : s ∈ m.stmts := heq ▸ Program.stmt_of_mem_callsAt hb
    have hmem : m ∈ p.methods := by
      rw [← Array.mem_toList_iff, hsplit]
      exact List.mem_append_left _ hm
    -- The statement would stand in a body that is done, but no method comes twice.
    have hnodup : (done ++ decl :: more).Nodup := hsplit ▸ hp.methods.of_map _
    rw [hp.eq_of_mem_stmts hmem hdecl hsm hs] at hm
    exact (List.nodup_append.1 hnodup).2.2 decl hm decl List.mem_cons_self rfl

end Direct

/-- The node of a declared method. -/
def declaredNode (p : Program) (decl : MethodDecl) : FuncNode :=
  { method := decl.sig, kind := kindOf decl, isSdk := p.isSdkMethod decl.sig }

/-- The nodes of all methods, after those of some. -/
theorem foldl_nodeFor (hp : p.Listed) {done more : List MethodDecl}
    (hsplit : p.methods.toList = done ++ more) :
    (more.map MethodDecl.sig).foldl (fun g m => (nodeFor g p m .blank).2)
      ({ nodes := (done.map (declaredNode p)).toArray } : CallGraph) =
      { nodes := (p.methods.toList.map (declaredNode p)).toArray } := by
  induction more generalizing done with
  | nil =>
    rw [hsplit, List.append_nil]
    rfl
  | cons decl more ih =>
    have hdecl : p.method? decl.sig = some decl := by
      refine hp.method?_iff.2 ⟨?_, rfl⟩
      rw [← Array.mem_toList_iff, hsplit]
      simp
    have hnodup := hp.methods
    rw [hsplit, List.map_append, List.map_cons] at hnodup
    have hnone : ({ nodes := (done.map (declaredNode p)).toArray } : CallGraph).funcId? decl.sig =
        none := by
      refine Array.findIdx?_eq_none_iff.2 fun x hx => ?_
      obtain ⟨d, hd, rfl⟩ := List.mem_map.1 (List.mem_toArray.1 hx)
      exact beq_eq_false_iff_ne.2
        ((List.nodup_append.1 hnodup).2.2 _ (List.mem_map_of_mem hd) _ List.mem_cons_self)
    have hrest := ih (show p.methods.toList = (done ++ [decl]) ++ more by simp [hsplit])
    rw [List.map_cons, List.foldl_cons, ← hrest]
    congr 1
    unfold nodeFor addNode
    rw [hdecl]
    dsimp only
    rw [hnone]
    simp [declaredNode]

/-- The declared methods alone, before any call. -/
theorem direct_declared (hp : p.Listed) :
    ((p.methods.toList.map MethodDecl.sig).foldl (fun g m => (nodeFor g p m .blank).2) {}).Direct p
      [] := by
  have horderly := foldl_invariant Orderly id (f := fun g m => (nodeFor g p m .blank).2)
    (fun g m h => h.nodeFor p m .blank) (p.methods.toList.map MethodDecl.sig) {} orderly_empty
  have hfold := foldl_nodeFor hp (List.nil_append p.methods.toList).symm
  rw [List.map_nil] at hfold
  rw [show ({} : CallGraph) = { nodes := ([] : List FuncNode).toArray } from rfl] at horderly ⊢
  rw [hfold] at horderly ⊢
  exact {
    orderly := horderly
    entries := rfl
    declared := fun k decl hdecl => by simp [node?, hdecl, declaredNode]
    placeholder := fun f x hx hf => by
      have hlt := (Array.getElem?_eq_some_iff.1 hx).1
      simp at hlt
      omega
    site := nofun
    siteCount := rfl
    noSite := fun _ _ => ⟨rfl, rfl⟩
    edge := fun _ _ => by simp [hasEdge, edge?]
    calls := fun _ _ _ _ => by simp [Calls, edge?] }

theorem direct_addProgram (hp : p.Listed) : (addProgram {} p).Direct p p.bodyCalls :=
  Direct.addBodies hp (List.nil_append p.methods.toList).symm (direct_declared hp)

/-! ## Building again -/

namespace Direct

theorem addStmt_again (h : g.Direct p cs) (hsrc : g.methodOf? src = some m)
    (hdone : ∀ i, p.invokeOf? stmt = some i → ⟨m, stmt, i⟩ ∈ cs) : g.addStmt p src stmt = g := by
  cases hi : p.invokeOf? stmt with
  | none => rw [CallGraph.addStmt, hi]
  | some i =>
    obtain ⟨k, hk⟩ := List.getElem?_of_mem (hdone i hi)
    obtain ⟨a, dst, hbetween, hstatic, hdynamic⟩ := h.site k _ hk
    obtain rfl : a = src := h.orderly.unique hbetween.caller hsrc
    have hcallee : ∀ missing, (g.nodeFor p i.method missing).2 = g ∧
        (g.nodeFor p i.method missing).1 = dst := by
      intro missing
      have hsame := nodeFor_of_has (p := p) ⟨dst, hbetween.callee⟩ missing
      have hmethod := g.methodOf?_nodeFor p i.method missing
      rw [hsame] at hmethod
      exact ⟨hsame, h.orderly.unique hmethod hbetween.callee⟩
    by_cases hkind : i.kind = .named
    · rw [if_pos hkind] at hstatic
      have hcall : g.Calls a dst (callKind i) stmt :=
        (h.calls _ _ _ _).2 ⟨_, hdone i hi, ⟨hkind, rfl, by rw [callKind, hkind]⟩, hbetween⟩
      have hsite := List.mem_of_mem_filter (hstatic ▸ List.mem_singleton_self _)
      rw [addStmt_of_named hi hkind]
      dsimp only
      rw [(hcallee .blank).1, (hcallee .blank).2, addCall_of_calls h.orderly hcall]
      exact addSite_of_mem h.orderly (Array.mem_toList_iff.1 hsite) _ _
    · rw [if_neg hkind] at hdynamic
      rw [addStmt_of_not_named hi hkind, (hcallee .virtual).1, (hcallee .virtual).2]
      exact addDynSite_of_isDynamic (by rw [IsDynamic, hdynamic]; rfl) _ _ _

theorem addBody_again (h : g.Direct p p.bodyCalls) {decl : MethodDecl}
    (hm : p.method? m = some decl) : g.addBody p m = g := by
  obtain ⟨hsame, hsrc⟩ := h.nodeFor_of_declared hm .blank
  obtain rfl := Program.sig_of_method? hm
  unfold CallGraph.addBody
  rw [hm]
  dsimp only
  rw [hsame]
  refine foldl_again fun s hs => h.addStmt_again hsrc fun i hi => ?_
  exact Program.mem_bodyCalls (Array.mem_of_find?_eq_some hm) hs hi

/-- To build the graph again for declared methods changes nothing. -/
theorem addDirect (h : g.Direct p p.bodyCalls) {ms : List MethodSig}
    (hms : ∀ m ∈ ms, (p.method? m).isSome = true) : g.addDirect p ms = g := by
  unfold CallGraph.addDirect
  have hnodes : ms.foldl (fun g m => (CallGraph.nodeFor g p m .blank).2) g = g := by
    refine foldl_again fun m hm => ?_
    obtain ⟨decl, hdecl⟩ := Option.isSome_iff_exists.1 (hms m hm)
    exact (h.nodeFor_of_declared hdecl .blank).1
  dsimp only
  rw [hnodes]
  refine foldl_again fun m hm => ?_
  obtain ⟨decl, hdecl⟩ := Option.isSome_iff_exists.1 (hms m hm)
  exact h.addBody_again hdecl

end Direct

/-- The direct call graph of a program that is put together has the methods, the call sites and the
edges that its bodies tell, and no others. To build it again, for the program or for whatever
methods of it, changes nothing. -/
theorem addProgram_exact (hp : p.Assembled) :
    (addProgram {} p).Direct p p.bodyCalls ∧
    (addProgram {} p).addProgram p = addProgram {} p ∧
    ∀ ms, (∀ m ∈ ms, (p.method? m).isSome = true) →
      (addProgram {} p).addDirect p ms = addProgram {} p := by
  have hdirect := direct_addProgram hp.listed
  refine ⟨hdirect, hdirect.addDirect fun m hm => ?_, fun ms hms => hdirect.addDirect hms⟩
  obtain ⟨decl, hdecl, rfl⟩ := List.mem_map.1 hm
  rw [hp.listed.method?_iff.2 ⟨Array.mem_toList_iff.1 hdecl, rfl⟩]
  rfl

namespace Calling

def file : FileSig := ⟨"sample", "calls.ts"⟩

def main : MethodSig := file.defaultMethod

def helper : MethodSig := ⟨file.defaultClass, "help"⟩

/-- A class of a library that is not declared. -/
def library : ClassSig := .builtin "Library"

/-- The body of `main` as it is written: `help(); x = new Library(); x.run(); help()`. -/
def bodyOfMain : Program.Draft :=
  let d := ((Program.addFile {} file false).2.addFunction file "help").2.openBody main
  let d := (d.call none ⟨.named, helper, none, []⟩).2
  let d := (d.localVar "x" (.object library)).2
  let d := (d.call none ⟨.named, ⟨library, Naming.constructor⟩, none, []⟩).2
  let d := (d.call none ⟨.member, ⟨library, "run"⟩, some 1, []⟩).2
  (d.call none ⟨.named, helper, none, []⟩).2

def calling : Program :=
  bodyOfMain.close

end Calling

open Calling

/-- There are two methods and two placeholders; the two calls of `help` share an edge. -/
theorem addProgram_exact_calling :
    (addProgram {} calling).Direct calling calling.bodyCalls ∧
      (addProgram {} calling).addDirect calling [helper, main] = addProgram {} calling ∧
      (addProgram {} calling).nodes.toList.map FuncNode.kind =
        [.real, .blank, .blank, .virtual] ∧
      (addProgram {} calling).edge? 0 1 = some { src := 0, dst := 1, direct := [0, 3] } := by
  have hbody : Relation.ReflTransGen Program.Draft.Step
      (((Program.addFile {} file false).2.addFunction file "help").2.openBody main) bodyOfMain :=
    .tail (.tail (.tail (.tail (.single (.call (by decide))) (.localVar "x" (by decide)))
      (.call (by decide))) (.call (by decide +kernel))) (.call (by decide))
  have hassembled : calling.Assembled :=
    .tail (.tail (.single (.file file false)) (.function file "help")) (.body main hbody)
  obtain ⟨hdirect, -, hagain⟩ := addProgram_exact hassembled
  exact ⟨hdirect, hagain _ (by decide +kernel), by decide +kernel, by decide +kernel⟩

end CallGraph

end PointsTo
