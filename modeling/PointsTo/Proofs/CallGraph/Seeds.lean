import PointsTo.Proofs.CallGraph.Growth
import PointsTo.Proofs.Effects

/-!
# How seeds differ

The direct call graph has a node for every method that the program declares or a body calls. If a
program is *closed*, resolving calls on the class hierarchy finds no others, so it adds edges and
nothing else (`Seed.graph_onlyCalls`). Whatever the seed, every call in a declared body that is not
by name has a dynamic site (`Seed.graph_dynamic`).
-/

namespace PointsTo

/-- Classes list declared methods only, and so do the types of functions. -/
structure Program.Closed (p : Program) : Prop where
  methods : ∀ c ∈ p.classes.toList, ∀ m ∈ c.methods, (p.method? m).isSome = true
  functions : ∀ v ∈ p.values.toList, ∀ m ∈ v.ty.functionSig?, (p.method? m).isSome = true

/-! ## Dispatch -/

/-- The method is a target. -/
def Dispatch.Reaches (m : MethodSig) : Dispatch → Prop
  | .fixed target => m = target
  | .virtual targets => ∃ c, (c, m) ∈ targets

namespace Program

variable {p : Program}

theorem Closed.findMethod? (hp : p.Closed) {c : ClassSig} {name : String} {m : MethodSig}
    (h : p.findMethod? c name = some m) : (p.method? m).isSome = true := by
  obtain ⟨d, -, hd⟩ := List.exists_of_findSome?_eq_some h
  obtain ⟨decl, hdecl, hm⟩ := Option.bind_eq_some_iff.1 hd
  exact hp.methods decl (by simpa using Array.mem_of_find?_eq_some hdecl) m
    (List.mem_of_find?_eq_some hm)

theorem Closed.functionSig? (hp : p.Closed) {v : ValueId} {m : MethodSig}
    (h : (p.tyOf v).functionSig? = some m) : (p.method? m).isSome = true := by
  unfold tyOf at h
  cases hv : p.value? v with
  | none =>
    rw [hv] at h
    cases h
  | some value =>
    rw [hv] at h
    exact hp.functions value (by simpa using Array.mem_of_getElem? hv) m h

/-- A call reaches the method it names, or others that are declared. -/
theorem Closed.dispatch (hp : p.Closed) {i : Invoke} {m : MethodSig}
    (h : (p.dispatch i).Reaches m) : m = i.method ∨ (p.method? m).isSome = true := by
  have named : ∀ {o : Option MethodSig}, (∀ m', o = some m' → (p.method? m').isSome = true) →
      m = o.getD i.method → m = i.method ∨ (p.method? m).isSome = true := by
    intro o ho hm
    cases o with
    | none => exact Or.inl hm
    | some m' => exact Or.inr (hm ▸ ho m' rfl)
  unfold Program.dispatch at h
  split at h
  · exact Or.inl h
  · split at h
    · exact Or.inl h
    · refine named (fun m' hm' => ?_) h
      obtain ⟨v, -, hv⟩ := Option.bind_eq_some_iff.1 hm'
      exact hp.functionSig? hv
  · split at h
    · exact named (fun m' hm' => hp.findMethod? hm') h
    · split at h
      · exact Or.inl h
      · dsimp only at h
        split at h
        · exact Or.inl h
        · obtain ⟨c, hc⟩ := h
          obtain ⟨d, -, hd⟩ := List.mem_filterMap.1 hc
          obtain ⟨m', hm', heq⟩ := Option.map_eq_some_iff.1 hd
          cases heq
          exact Or.inr (hp.findMethod? hm')

end Program

namespace CallGraph

variable {p : Program} {g g' : CallGraph} {m : MethodSig}

/-! ## Methods with nodes -/

/-- The method has a node. -/
def Has (g : CallGraph) (m : MethodSig) : Prop :=
  ∃ f, g.methodOf? f = some m

/-- Declared methods have nodes, and so has what their bodies call. -/
structure Complete (p : Program) (g : CallGraph) : Prop where
  declared : ∀ {m decl}, p.method? m = some decl → g.Has m
  called : ∀ {m decl}, p.method? m = some decl → ∀ stmt ∈ decl.stmts, ∀ {i},
    p.invokeOf? stmt = some i → g.Has i.method

theorem Has.congr (h : g.Has m) (hnodes : g'.nodes = g.nodes) : g'.Has m := by
  unfold Has methodOf? node? at *
  rw [hnodes]
  exact h

theorem Complete.congr (h : g.Complete p) (hnodes : g'.nodes = g.nodes) : g'.Complete p where
  declared hm := (h.declared hm).congr hnodes
  called hm stmt hs _ hi := (h.called hm stmt hs hi).congr hnodes

theorem has_nodeFor (g : CallGraph) (p : Program) (m : MethodSig) (missing : FuncKind) :
    (g.nodeFor p m missing).2.Has m :=
  ⟨_, g.methodOf?_nodeFor p m missing⟩

/-- A method that has a node gets no other. -/
theorem nodeFor_of_has (h : g.Has m) (missing : FuncKind) : (g.nodeFor p m missing).2 = g := by
  obtain ⟨kind, isSdk, heq⟩ := g.nodeFor_eq p m missing
  obtain ⟨f, hf⟩ := h
  rw [heq]
  unfold addNode
  split
  · rfl
  · rename_i hnone
    exact absurd hf (methodOf?_ne_of_funcId? hnone f)

/-- Nodes stay, under whatever number. -/
def KeepsNodes (g g' : CallGraph) : Prop :=
  ∀ ⦃m⦄, g.Has m → g'.Has m

instance : IsPreorder CallGraph KeepsNodes where
  refl _ _ h := h
  trans _ _ _ h h' _ hm := h' (h hm)

theorem KeepsNodes.of_nodes (h : g'.nodes = g.nodes) : g.KeepsNodes g' :=
  fun _ hm => hm.congr h

theorem keepsNodes_nodeFor (g : CallGraph) (p : Program) (m : MethodSig) (missing : FuncKind) :
    g.KeepsNodes (g.nodeFor p m missing).2 :=
  fun _ ⟨f, hf⟩ => ⟨f, (g.nodeFor_grows p m missing).method hf⟩

/-! ## The direct graph -/

theorem addStmt_keepsNodes (g : CallGraph) (p : Program) (caller : FuncId) (stmt : StmtId) :
    g.KeepsNodes (g.addStmt p caller stmt) ∧
      ∀ {i}, p.invokeOf? stmt = some i → (g.addStmt p caller stmt).Has i.method := by
  -- In every case a node is asked for, and what comes then leaves the nodes as they are.
  have asked : ∀ {g' : CallGraph} {i : Invoke} {missing : FuncKind},
      g'.nodes = (g.nodeFor p i.method missing).2.nodes →
      g.KeepsNodes g' ∧ ∀ {i'}, some i = some i' → g'.Has i'.method := by
    intro g' i missing hnodes
    refine ⟨trans_of KeepsNodes (g.keepsNodes_nodeFor p i.method missing) (.of_nodes hnodes), ?_⟩
    rintro _ ⟨⟩
    exact (g.has_nodeFor p i.method missing).congr hnodes
  unfold addStmt
  split
  · rename_i hnone
    refine ⟨refl_of KeepsNodes g, fun hi => ?_⟩
    rw [hnone] at hi
    cases hi
  · rename_i i hi
    rw [hi]
    split
    · exact asked (by rw [nodes_addSite, nodes_addCall])
    · exact asked (nodes_addDynSite ..)
    · exact asked (nodes_addDynSite ..)

/-- What every node and every statement does to the graph along `R`, the direct graph has for every
declared method and for its statements. -/
theorem addProgram_spec {R : CallGraph → CallGraph → Prop} [IsPreorder CallGraph R]
    {N : MethodSig → CallGraph → Prop} {P : StmtId → CallGraph → Prop}
    (hN : ∀ m g g', R g g' → N m g → N m g') (hP : ∀ stmt g g', R g g' → P stmt g → P stmt g')
    (hnode : ∀ g m missing, R g (nodeFor g p m missing).2 ∧ N m (nodeFor g p m missing).2)
    (hstmt : ∀ g caller stmt, R g (addStmt p caller g stmt) ∧ P stmt (addStmt p caller g stmt))
    (g : CallGraph) : ∀ m decl, p.method? m = some decl →
      N m (g.addProgram p) ∧ ∀ stmt ∈ decl.stmts, P stmt (g.addProgram p) := by
  have hms : ∀ {m decl}, p.method? m = some decl → m ∈ p.methods.toList.map MethodDecl.sig := by
    intro m decl hm
    have hsig : decl.sig = m := by simpa using Array.find?_some hm
    exact hsig ▸ List.mem_map_of_mem (by simpa using Array.mem_of_find?_eq_some hm)
  have hbody : ∀ g m, R g (addBody p g m) ∧ ∀ {decl}, p.method? m = some decl →
      ∀ stmt ∈ decl.stmts, P stmt (addBody p g m) := by
    intro g m
    unfold addBody
    split
    · rename_i hnone
      refine ⟨refl_of R g, fun hm => ?_⟩
      rw [hnone] at hm
      cases hm
    · rename_i decl hdecl
      have hloop : R (g.nodeFor p m .blank).2 _ ∧ ∀ stmt ∈ decl.stmts, _ :=
        foldl_spec hP fun stmt _ g' _ => hstmt g' (g.nodeFor p m .blank).1 stmt
      refine ⟨trans_of R (hnode g m .blank).1 hloop.1, fun hm stmt => ?_⟩
      rw [hdecl] at hm
      cases hm
      exact hloop.2 stmt
  unfold addProgram addDirect
  generalize p.methods.toList.map MethodDecl.sig = ms at hms
  have hfirst : R g _ ∧ ∀ m ∈ ms, _ := foldl_spec hN fun m _ g' _ => hnode g' m .blank
  have hsecond : R (ms.foldl (fun g m => (g.nodeFor p m .blank).2) g) _ ∧ ∀ m ∈ ms, _ :=
    foldl_spec (P := fun m g' => ∀ {decl}, p.method? m = some decl → ∀ stmt ∈ decl.stmts, P stmt g')
      (fun _ _ _ hr h _ hm stmt hmem => hP stmt _ _ hr (h hm stmt hmem)) fun m _ g' _ => hbody g' m
  exact fun m decl hm => ⟨hN _ _ _ hsecond.1 (hfirst.2 _ (hms hm)), hsecond.2 _ (hms hm) hm⟩

theorem complete_addProgram (g : CallGraph) (p : Program) : (g.addProgram p).Complete p := by
  have hgoes := addProgram_spec (p := p) (R := KeepsNodes) (N := fun m g => g.Has m)
    (P := fun stmt g => ∀ {i}, p.invokeOf? stmt = some i → g.Has i.method)
    (fun _ _ _ hkeeps h => hkeeps h) (fun _ _ _ hkeeps h _ hi => hkeeps (h hi))
    (fun g m missing => ⟨g.keepsNodes_nodeFor p m missing, g.has_nodeFor p m missing⟩)
    (fun g caller stmt => g.addStmt_keepsNodes p caller stmt) g
  exact ⟨fun hm => (hgoes _ _ hm).1, fun hm => (hgoes _ _ hm).2⟩

theorem nodesFor_keepsNodes (g : CallGraph) (p : Program)
    (missing : FuncKind) (ms : List MethodSig) : g.KeepsNodes (g.nodesFor p missing ms).2 := by
  induction ms generalizing g with
  | nil => exact refl_of KeepsNodes g
  | cons m ms ih => exact trans_of KeepsNodes (g.keepsNodes_nodeFor p m missing) (ih _)

theorem Complete.of_keepsNodes (h : g.Complete p) (hkeeps : g.KeepsNodes g') : g'.Complete p where
  declared hm := hkeeps (h.declared hm)
  called hm stmt hstmt _ hi := hkeeps (h.called hm stmt hstmt hi)

/-! ## Dynamic sites -/

/-- The statement has a dynamic site. -/
def IsDynamic (g : CallGraph) (stmt : StmtId) : Prop :=
  (g.dynSiteAt? stmt).isSome = true

/-- Dynamic sites stay. -/
def KeepsDynamic (g g' : CallGraph) : Prop :=
  ∀ ⦃stmt⦄, g.IsDynamic stmt → g'.IsDynamic stmt

instance : IsPreorder CallGraph KeepsDynamic where
  refl _ _ h := h
  trans _ _ _ h h' _ hs := h' (h hs)

theorem KeepsDynamic.of_dynSites (h : g'.dynSites = g.dynSites) : g.KeepsDynamic g' := by
  intro stmt hs
  unfold IsDynamic dynSiteAt? at *
  rwa [h]

theorem addDynSite_dynamic (g : CallGraph) (stmt : StmtId) (args : List ValueId) (caller : FuncId)
    (potential : Option FuncId) : g.KeepsDynamic (g.addDynSite stmt args caller potential).2 ∧
      (g.addDynSite stmt args caller potential).2.IsDynamic stmt := by
  unfold addDynSite
  split
  · rename_i s hs
    exact ⟨refl_of KeepsDynamic g, by rw [IsDynamic, hs]; rfl⟩
  · refine ⟨fun stmt' h => ?_, ?_⟩
    · unfold IsDynamic dynSiteAt? at *
      rw [Array.find?_push, Option.isSome_or, h, Bool.true_or]
    · simp [IsDynamic, dynSiteAt?, Array.find?_push]

theorem addStmt_dynamic (g : CallGraph) (p : Program) (caller : FuncId) (stmt : StmtId) :
    g.KeepsDynamic (g.addStmt p caller stmt) ∧ ∀ {i}, p.invokeOf? stmt = some i →
      i.kind ≠ .named → (g.addStmt p caller stmt).IsDynamic stmt := by
  have dynamic : ∀ {i : Invoke} {missing : FuncKind} {potential : Option FuncId},
      let g₁ := (g.nodeFor p i.method missing).2
      g.KeepsDynamic (g₁.addDynSite stmt i.args caller potential).2 ∧
        (g₁.addDynSite stmt i.args caller potential).2.IsDynamic stmt := by
    intro i missing potential g₁
    have hsite := g₁.addDynSite_dynamic stmt i.args caller potential
    have hnode : g.KeepsDynamic g₁ := .of_dynSites (nodeFor_grows ..).dynSites
    exact ⟨trans_of KeepsDynamic hnode hsite.1, hsite.2⟩
  unfold addStmt
  split
  · rename_i hnone
    refine ⟨refl_of KeepsDynamic g, fun hi => ?_⟩
    rw [hnone] at hi
    cases hi
  · rename_i i hi
    rw [hi]
    split
    · rename_i hk
      refine ⟨.of_dynSites ?_, ?_⟩
      · rw [dynSites_addSite, (addCall_grows ..).dynSites, (nodeFor_grows ..).dynSites]
      · rintro _ ⟨⟩ hne
        exact absurd hk hne
    · exact ⟨dynamic.1, fun _ _ => dynamic.2⟩
    · exact ⟨dynamic.1, fun _ _ => dynamic.2⟩

/-- In the direct graph, every call in a declared body has a dynamic site unless it is by name. -/
theorem addProgram_dynamic {decl : MethodDecl} {stmt : StmtId} {i : Invoke}
    (hm : p.method? m = some decl) (hstmt : stmt ∈ decl.stmts) (hi : p.invokeOf? stmt = some i)
    (hkind : i.kind ≠ .named) : (g.addProgram p).IsDynamic stmt := by
  have hgoes := addProgram_spec (p := p) (R := KeepsDynamic) (N := fun _ _ => True)
    (P := fun stmt g => ∀ {i}, p.invokeOf? stmt = some i → i.kind ≠ .named → g.IsDynamic stmt)
    (fun _ _ _ _ h => h) (fun _ _ _ hkeeps h _ hi hkind => hkeeps (h hi hkind))
    (fun g m missing => ⟨.of_dynSites (nodeFor_grows ..).dynSites, trivial⟩)
    (fun g caller stmt => g.addStmt_dynamic p caller stmt) g
  exact (hgoes _ _ hm).2 stmt hstmt hi hkind

/-! ## Resolving calls -/

/-- Edges were added, and nothing else. -/
structure OnlyCalls (g g' : CallGraph) : Prop where
  nodes : g'.nodes = g.nodes
  sites : g'.sites = g.sites
  dynSites : g'.dynSites = g.dynSites
  entries : g'.entries = g.entries
  links : g.links ⊆ g'.links

namespace OnlyCalls

theorem rfl {g : CallGraph} : g.OnlyCalls g :=
  ⟨.refl _, .refl _, .refl _, .refl _, fun _ h => h⟩

theorem trans {g₁ g₂ g₃ : CallGraph} (h : g₁.OnlyCalls g₂) (h' : g₂.OnlyCalls g₃) :
    g₁.OnlyCalls g₃ where
  nodes := h'.nodes.trans h.nodes
  sites := h'.sites.trans h.sites
  dynSites := h'.dynSites.trans h.dynSites
  entries := h'.entries.trans h.entries
  links := fun _ hl => h'.links (h.links hl)

theorem addCall (g : CallGraph) (src dst : FuncId) (stmt : StmtId) (kind : CallKind) :
    g.OnlyCalls (g.addCall src dst stmt kind).2 where
  nodes := nodes_addCall ..
  sites := sites_addCall ..
  dynSites := (g.addCall_grows src dst stmt kind).dynSites
  entries := by
    unfold CallGraph.addCall
    split <;> exact .refl _
  links := (g.addCall_grows src dst stmt kind).links

/-- A loop of which every round adds edges only. -/
theorem foldl {α β : Type} (graph : β → CallGraph) {f : β → α → β} {xs : List α} (b : β)
    (hf : ∀ x ∈ xs, ∀ b', (graph b).OnlyCalls (graph b') →
      (graph b').OnlyCalls (graph (f b' x))) : (graph b).OnlyCalls (graph (xs.foldl f b)) := by
  induction xs generalizing b with
  | nil => exact rfl
  | cons x xs ih =>
    have hx := hf x (by simp) b rfl
    exact hx.trans (ih _ fun y hy b' hb' => hf y (by simp [hy]) b' (hx.trans hb'))

end OnlyCalls

end CallGraph

namespace Resolver

open CallGraph (OnlyCalls Complete)

variable {p : Program} {r : Resolver}

theorem connect_onlyCalls (r : Resolver) (caller callee : FuncId) (stmt : StmtId)
    (kind : CallKind) : r.graph.OnlyCalls (r.connect caller callee stmt kind).graph := by
  unfold connect
  rw [graph_push]
  exact .addCall ..

theorem instantiate_onlyCalls (r : Resolver) (c : ClassSig) :
    r.graph.OnlyCalls (r.instantiate c).graph := by
  unfold instantiate
  split
  · exact .rfl
  · dsimp only
    exact .foldl Resolver.graph { r with instantiated := c :: r.instantiated, parked := _ }
      fun _ _ r' _ => r'.connect_onlyCalls ..

theorem enter_onlyCalls (p : Program) (r : Resolver) (f : FuncId) :
    r.graph.OnlyCalls (r.enter p f).graph := by
  unfold enter
  split
  · exact .rfl
  · split
    · exact .rfl
    · exact .foldl Resolver.graph r fun c _ r' _ => r'.instantiate_onlyCalls c

/-- The callees of a call have nodes already. -/
theorem resolve_onlyCalls (hp : p.Closed) (hg : r.graph.Complete p) (caller : FuncId)
    {stmt : StmtId} (hstmt : ∀ {i}, p.invokeOf? stmt = some i → r.graph.Has i.method) :
    r.graph.OnlyCalls (r.resolve p caller stmt).2.graph := by
  have reached : ∀ {i m}, p.invokeOf? stmt = some i → (p.dispatch i).Reaches m →
      r.graph.Has m := by
    intro i m hi hm
    rcases hp.dispatch hm with rfl | hdecl
    · exact hstmt hi
    · obtain ⟨decl, hdecl⟩ := Option.isSome_iff_exists.1 hdecl
      exact hg.declared hdecl
  unfold resolve
  split
  · exact .rfl
  · rename_i i hi
    split
    · rename_i m hm
      dsimp only
      rw [CallGraph.nodeFor_of_has (reached hi (by rw [hm]; rfl))]
      exact .rfl
    · rename_i targets htargets
      refine OnlyCalls.foldl (fun acc : List FuncId × Resolver => acc.2.graph) ([], r) ?_
      intro t ht acc hacc
      have hhas := (reached hi (by rw [htargets]; exact ⟨t.1, ht⟩)).congr hacc.nodes
      unfold target
      dsimp only
      rw [CallGraph.nodeFor_of_has hhas]
      split
      · exact .rfl
      · exact .rfl

theorem followStmt_onlyCalls (hp : p.Closed) (hg : r.graph.Complete p) (caller : FuncId)
    {stmt : StmtId} (hstmt : ∀ {i}, p.invokeOf? stmt = some i → r.graph.Has i.method) :
    r.graph.OnlyCalls (r.followStmt p caller stmt).graph := by
  unfold followStmt
  split
  · exact .rfl
  · refine (resolve_onlyCalls hp hg caller hstmt).trans ?_
    exact .foldl Resolver.graph _ fun _ _ r' _ => r'.connect_onlyCalls ..

theorem expand_onlyCalls (hp : p.Closed) (hg : r.graph.Complete p) (f : FuncId) :
    r.graph.OnlyCalls (r.expand p f).2.graph := by
  unfold expand
  split
  · exact .rfl
  · dsimp only
    split
    · exact .rfl
    · rename_i body hbody
      obtain ⟨decl, hdecl, hbody⟩ := Option.bind_eq_some_iff.1 hbody
      obtain ⟨m, -, hm⟩ := Option.bind_eq_some_iff.1 hdecl
      have hstmts : decl.stmts = body.stmts := by simp [MethodDecl.stmts, hbody]
      have henter := enter_onlyCalls p { r with processed := f :: r.processed } f
      refine henter.trans (.foldl Resolver.graph _ fun stmt hstmt r' h' => ?_)
      have hg' := hg.congr (henter.trans h').nodes
      exact followStmt_onlyCalls hp hg' f (hg'.called hm stmt (hstmts ▸ hstmt))

theorem drain_onlyCalls (hp : p.Closed) (n : Nat) (hg : r.graph.Complete p) :
    r.graph.OnlyCalls (r.drain p n).2.graph := by
  induction n generalizing r with
  | zero => exact .rfl
  | succ n ih =>
    unfold drain
    split
    · exact .rfl
    · rename_i f queue hqueue
      have hexpand := expand_onlyCalls (r := { r with queue }) hp hg f
      exact hexpand.trans (ih (hg.congr hexpand.nodes))

theorem start_onlyCalls (hp : p.Closed) (hg : r.graph.Complete p) (entries : List FuncId) :
    r.graph.OnlyCalls (r.start p entries).2.graph :=
  drain_onlyCalls (r := { r with queue := r.queue ++ entries }) hp _ hg

end Resolver

/-- Whatever calls are resolved by, only edges are added to the direct graph. -/
theorem Seed.graph_onlyCalls {p : Program} (hp : p.Closed) (seed : Seed)
    (entries : List MethodSig) :
    (Seed.direct.graph p entries).OnlyCalls (seed.graph p entries) := by
  have hcomplete : (Seed.direct.graph p entries).Complete p :=
    (CallGraph.complete_addProgram {} p).of_keepsNodes
      (CallGraph.nodesFor_keepsNodes _ p .blank entries)
  cases seed with
  | direct => exact .rfl
  | classHierarchy =>
    exact Resolver.start_onlyCalls (r := { precision := .hierarchy, graph := _ }) hp hcomplete _
  | rapidTypes =>
    exact Resolver.start_onlyCalls (r := { precision := .rapidTypes, graph := _ }) hp hcomplete _

/-- So it has in every graph that an analysis starts from. -/
theorem Seed.graph_dynamic {p : Program} {m : MethodSig} {decl : MethodDecl} {stmt : StmtId}
    {i : Invoke} (seed : Seed) (entries : List MethodSig) (hm : p.method? m = some decl)
    (hstmt : stmt ∈ decl.stmts) (hi : p.invokeOf? stmt = some i) (hkind : i.kind ≠ .named) :
    (seed.graph p entries).IsDynamic stmt := by
  refine seed.graph_keptByGrowth (P := fun g => g.IsDynamic stmt) ⟨?_, ?_⟩ ?_
  · exact fun h => CallGraph.KeepsDynamic.of_dynSites (CallGraph.nodeFor_grows ..).dynSites h
  · exact fun h => CallGraph.KeepsDynamic.of_dynSites (CallGraph.addCall_grows ..).dynSites h
  · have hnodes : ((CallGraph.addProgram {} p).nodesFor p .blank entries).2.IsDynamic stmt :=
      CallGraph.nodesFor_keptByGrowth (P := fun g => g.IsDynamic stmt)
        (fun h => CallGraph.KeepsDynamic.of_dynSites (CallGraph.nodeFor_grows ..).dynSites h)
        .blank entries (CallGraph.addProgram_dynamic hm hstmt hi hkind)
    exact hnodes

end PointsTo
