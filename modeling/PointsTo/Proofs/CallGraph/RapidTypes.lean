import PointsTo.Proofs.CallGraph.Draining

/-!
# Rapid types find the least outcome

When the queue of a resolver is empty, what it has found is closed (`closed_resolved`). With rapid
types it is also the least closed outcome, whatever the order of the entries and of the calls
(`isLeast_rapidTypes`), and the class hierarchy finds all of it too (`rapidTypes_within_hierarchy`).

The direct call graph is there before: calls by name are recorded for all methods, reached or not.
Those of reached methods are calls with one target, so a closed outcome has them (`OnlyNamed`).
-/

namespace PointsTo

theorem Program.dispatch_named {p : Program} {i : Invoke} (h : i.kind = .named) :
    p.dispatch i = .fixed i.method := by
  unfold dispatch
  rw [h]

namespace CallGraph

variable {p : Program} {g g' : CallGraph}

/-! ## The direct graph -/

/-- Only calls by name are recorded, each between the nodes of its methods. -/
def OnlyNamed (p : Program) (g : CallGraph) : Prop :=
  ∀ ⦃f f' kind stmt⦄, g.Calls f f' kind stmt → ∃ m i, g.methodOf? f = some m ∧
    g.methodOf? f' = some i.method ∧ p.Invokes m stmt i ∧ i.kind = .named ∧ kind = callKind i

namespace OnlyNamed

theorem empty (p : Program) : OnlyNamed p {} := by
  rintro f f' kind stmt ⟨e, he, -⟩
  simp [edge?] at he

theorem congr (h : g.OnlyNamed p) (hnodes : g'.nodes = g.nodes) (hedges : g'.edges = g.edges) :
    g'.OnlyNamed p := by
  unfold OnlyNamed Calls edge? methodOf? node?
  rw [hnodes, hedges]
  exact h

theorem nodeFor (h : g.OnlyNamed p) {m : MethodSig} {missing : FuncKind} :
    (g.nodeFor p m missing).2.OnlyNamed p := by
  intro f f' kind stmt hcalls
  obtain ⟨m', i, hm', hi, hrest⟩ := h (calls_nodeFor.1 hcalls)
  have hgrows := g.nodeFor_grows p m missing
  exact ⟨m', i, hgrows.method hm', hgrows.method hi, hrest⟩

theorem addCall (h : g.OnlyNamed p) {caller callee : FuncId} {m : MethodSig} {stmt : StmtId}
    {i : Invoke} (hm : g.methodOf? caller = some m) (hcallee : g.methodOf? callee = some i.method)
    (hi : p.Invokes m stmt i) (hkind : i.kind = .named) :
    (g.addCall caller callee stmt (callKind i)).2.OnlyNamed p := by
  intro f f' kind stmt' hcalls
  have hgrows := g.addCall_grows caller callee stmt (callKind i)
  rcases (calls_addCall_iff ..).1 hcalls with hcalls | ⟨rfl, rfl, rfl, rfl⟩
  · obtain ⟨m', i', hm', hi', hrest⟩ := h hcalls
    exact ⟨m', i', hgrows.method hm', hgrows.method hi', hrest⟩
  · exact ⟨m, i, hgrows.method hm, hgrows.method hcallee, hi, hkind, rfl⟩

theorem addStmt (h : g.OnlyNamed p) {caller : FuncId} {m : MethodSig} {decl : MethodDecl}
    (hm : g.methodOf? caller = some m) (hdecl : p.method? m = some decl) {stmt : StmtId}
    (hstmt : stmt ∈ decl.stmts) :
    (g.addStmt p caller stmt).OnlyNamed p ∧
      (g.addStmt p caller stmt).methodOf? caller = some m := by
  -- Sites leave nodes and edges as they are.
  have hsame : ∀ {g' g'' : CallGraph}, g'.OnlyNamed p → g'.methodOf? caller = some m →
      g''.nodes = g'.nodes → g''.edges = g'.edges →
      g''.OnlyNamed p ∧ g''.methodOf? caller = some m := by
    intro g' g'' h' hm' hnodes hedges
    exact ⟨h'.congr hnodes hedges, (methodOf?_congr hnodes caller).trans hm'⟩
  unfold CallGraph.addStmt
  cases hi : p.invokeOf? stmt with
  | none => exact ⟨h, hm⟩
  | some i =>
    dsimp only
    have hcaller := fun missing => (g.nodeFor_grows p i.method missing).method hm
    split
    · rename_i hkind
      exact hsame (h.nodeFor.addCall (hcaller .blank) (g.methodOf?_nodeFor p i.method .blank)
          ⟨decl, hdecl, hstmt, hi⟩ hkind)
        ((addCall_grows ..).method (hcaller .blank)) (nodes_addSite ..) (edges_addSite ..)
    · exact hsame h.nodeFor (hcaller .virtual) (nodes_addDynSite ..) (edges_addDynSite ..)
    · exact hsame h.nodeFor (hcaller .virtual) (nodes_addDynSite ..) (edges_addDynSite ..)

theorem addBody (h : g.OnlyNamed p) (m : MethodSig) : (g.addBody p m).OnlyNamed p := by
  unfold CallGraph.addBody
  cases hdecl : p.method? m with
  | none => exact h
  | some decl =>
    dsimp only
    refine (List.foldlRecOn (motive := fun g' : CallGraph => g'.OnlyNamed p ∧
      g'.methodOf? (g.nodeFor p m .blank).1 = some m) decl.stmts _ ?_ ?_).1
    · exact ⟨h.nodeFor, g.methodOf?_nodeFor p m .blank⟩
    · exact fun g' hg' stmt hstmt => hg'.1.addStmt hg'.2 hdecl hstmt

theorem addProgram (h : g.OnlyNamed p) : (g.addProgram p).OnlyNamed p := by
  refine foldl_invariant (OnlyNamed p) id (fun _ m hg => hg.addBody m) _ _ ?_
  exact foldl_invariant (OnlyNamed p) id (fun _ _ hg => hg.nodeFor) _ _ h

theorem setEntries (h : g.OnlyNamed p) (entries : List MethodSig) :
    (g.setEntries p entries).2.OnlyNamed p :=
  (nodesFor_keptByGrowth (fun h => h.nodeFor) .blank entries h).congr rfl rfl

end OnlyNamed

theorem nodesFor_grows (g : CallGraph) (p : Program) (missing : FuncKind) (ms : List MethodSig) :
    g.Grows (g.nodesFor p missing ms).2 := by
  induction ms generalizing g with
  | nil => exact .rfl
  | cons m ms ih => exact (g.nodeFor_grows p m missing).trans (ih _)

/-- The ids are those of the methods. -/
theorem mem_nodesFor (g : CallGraph) (p : Program) (missing : FuncKind) (ms : List MethodSig) :
    (∀ f ∈ (g.nodesFor p missing ms).1, ∃ m ∈ ms,
      (g.nodesFor p missing ms).2.methodOf? f = some m) ∧
    ∀ m ∈ ms, ∃ f ∈ (g.nodesFor p missing ms).1,
      (g.nodesFor p missing ms).2.methodOf? f = some m := by
  induction ms generalizing g with
  | nil => simp [nodesFor]
  | cons m ms ih =>
    obtain ⟨hids, hms⟩ := ih (g.nodeFor p m missing).2
    have hfirst := ((g.nodeFor p m missing).2.nodesFor_grows p missing ms).method
      (g.methodOf?_nodeFor p m missing)
    constructor
    · intro f hf
      rcases List.mem_cons.1 hf with rfl | hf
      · exact ⟨m, List.mem_cons_self, hfirst⟩
      · obtain ⟨m', hm', heq⟩ := hids f hf
        exact ⟨m', List.mem_cons_of_mem _ hm', heq⟩
    · intro m' hm'
      rcases List.mem_cons.1 hm' with rfl | hm'
      · exact ⟨_, List.mem_cons_self, hfirst⟩
      · obtain ⟨f, hf, heq⟩ := hms m' hm'
        exact ⟨f, List.mem_cons_of_mem _ hf, heq⟩

end CallGraph

/-! ## What is found -/

namespace Resolver

/-- The nodes of the entries, and the direct call graph with them. -/
def direct (p : Program) (entries : List MethodSig) : List FuncId × CallGraph :=
  (CallGraph.addProgram {} p).setEntries p entries

/-- The methods reached from the entries, and the resolver in the end. -/
def resolution (p : Program) (precision : Precision) (entries : List MethodSig) :
    List FuncId × Resolver :=
  start p { precision, graph := (direct p entries).2 } (direct p entries).1

/-- The methods reached, the classes that count, and the calls of the graph that reached methods
make. -/
def resolved (p : Program) (precision : Precision) (entries : List MethodSig) : Outcome where
  reached := {m | ∃ f ∈ (CallGraph.addResolved {} p precision entries).1,
    (CallGraph.addResolved {} p precision entries).2.methodOf? f = some m}
  allocated := {c | (resolution p precision entries).2.counts c = true}
  calls := {call | (∃ f ∈ (CallGraph.addResolved {} p precision entries).1,
    (CallGraph.addResolved {} p precision entries).2.methodOf? f = some call.caller) ∧
    (CallGraph.addResolved {} p precision entries).2.Records call}

variable {p : Program} {precision : Precision} {entries : List MethodSig} {o : Outcome}

theorem onlyNamed_direct (p : Program) (entries : List MethodSig) :
    (direct p entries).2.OnlyNamed p :=
  (CallGraph.OnlyNamed.empty p).addProgram.setEntries entries

theorem consistent_direct (p : Program) (entries : List MethodSig) :
    (direct p entries).2.Consistent p :=
  (CallGraph.Consistent.empty p).addProgram.setEntries entries

theorem mem_entries (p : Program) (entries : List MethodSig) :
    (∀ f ∈ (direct p entries).1, ∃ m ∈ entries, (direct p entries).2.methodOf? f = some m) ∧
    ∀ m ∈ entries, ∃ f ∈ (direct p entries).1, (direct p entries).2.methodOf? f = some m :=
  (CallGraph.addProgram {} p).mem_nodesFor p .blank entries

/-- The resolver when it starts. -/
def initial (p : Program) (precision : Precision) (entries : List MethodSig) : Resolver :=
  { precision, graph := (direct p entries).2, queue := (direct p entries).1 }

/-- By hierarchy every class counts from the start, so this is asked of the outcome. -/
theorem invariant_initial (ho : o.Closed p entries)
    (hall : precision = .hierarchy → ∀ c, c ∈ o.allocated) :
    (initial p precision entries).Invariant p o (direct p entries).2 := by
  refine ⟨⟨fun {f} hf => ?_, fun {c} hc => ?_, ?_, Or.inl⟩, ?_, .rfl, Or.inl⟩
  · have hids : f ∈ (direct p entries).1 := hf.resolve_right List.not_mem_nil
    obtain ⟨m, hm, hf⟩ := (mem_entries p entries).1 f hids
    exact ⟨m, hf, ho.entry m hm⟩
  · cases precision with
    | hierarchy => exact hall rfl c
    | rapidTypes => cases hc
  · exact fun call hcall => absurd hcall List.not_mem_nil
  · exact fun f hf => absurd hf List.not_mem_nil

theorem drains_resolution (precision : Precision) (ho : o.Closed p entries)
    (hall : precision = .hierarchy → ∀ c, c ∈ o.allocated) :
    QueueDrained p (initial p precision entries) (resolution p precision entries).1
        (resolution p precision entries).2 ∧
      (resolution p precision entries).2.Invariant p o (direct p entries).2 :=
  drain_invariant ho _ (invariant_initial ho hall)

/-- All calls, of whatever caller and callee. -/
def invocations (p : Program) : Outcome :=
  ⟨Set.univ, Set.univ, {call | ∃ i, p.invokeOf? call.stmt = some i}⟩

theorem closed_invocations (p : Program) (entries : List MethodSig) :
    (invocations p).Closed p entries where
  entry := by simp [invocations]
  allocation := by simp [invocations]
  fixed _ _ _ i _ hi _ := ⟨i, hi.choose_spec.2.2⟩
  virtual _ _ _ i _ hi _ _ _ _ _ := ⟨i, hi.choose_spec.2.2⟩
  callee := by simp [invocations]

/-- A call is recorded for a statement that makes one. -/
theorem invokes_of_calls (precision : Precision) {f f' : FuncId} {kind : CallKind} {stmt : StmtId}
    (h : (resolution p precision entries).2.graph.Calls f f' kind stmt) :
    ∃ i, p.invokeOf? stmt = some i := by
  obtain ⟨-, horderly⟩ :=
    drains_resolution precision (closed_invocations p entries) fun _ _ => trivial
  rcases horderly.within.recorded h with hcalls | ⟨m, t, -, -, hmem⟩
  · obtain ⟨m, i, -, -, hi, -⟩ := onlyNamed_direct p entries hcalls
    exact ⟨i, hi.choose_spec.2.2⟩
  · exact hmem

theorem queue_resolution (p : Program) (precision : Precision) (entries : List MethodSig) :
    (resolution p precision entries).2.queue = [] :=
  queue_drain (Outcome.closed_all p entries)
    (invariant_initial (Outcome.closed_all p entries) fun _ _ => trivial)
    (consistent_direct p entries) (work_le_bound p (initial p precision entries))

theorem consistent_resolution (p : Program) (precision : Precision) (entries : List MethodSig) :
    (resolution p precision entries).2.graph.Consistent p :=
  (keptByGrowth_consistent p).drain _ (consistent_direct p entries)

theorem met_resolution {f : FuncId} (h : (resolution p precision entries).2.Scheduled f) :
    f ∈ (resolution p precision entries).2.processed := by
  refine h.resolve_left fun hf => ?_
  rw [queue_resolution] at hf
  cases hf

/-- What is met and has a body is reached. -/
theorem reached_of_scheduled {f : FuncId} {m : MethodSig}
    (h : (resolution p precision entries).2.Scheduled f)
    (hm : (resolution p precision entries).2.graph.methodOf? f = some m)
    (hbody : p.hasBody m = true) : m ∈ (resolved p precision entries).reached := by
  have hdrains := (drains_resolution precision (Outcome.closed_all p entries)
    fun _ _ => trivial).1
  exact ⟨f, hdrains.reached.2 ⟨met_resolution h, List.not_mem_nil, m, hm, hbody⟩, hm⟩

/-- A reached method was expanded. -/
theorem expanded_of_reached {f : FuncId} {m : MethodSig}
    (h : f ∈ (resolution p precision entries).1)
    (hm : (resolution p precision entries).2.graph.methodOf? f = some m) :
    (∀ c, p.Allocates m c → (resolution p precision entries).2.counts c = true) ∧
      ∀ {stmt i}, p.Invokes m stmt i →
        (resolution p precision entries).2.Settled p f stmt i := by
  obtain ⟨hdrains, horderly⟩ := drains_resolution precision
    (Outcome.closed_all p entries) fun _ _ => trivial
  obtain ⟨m', hm', hexpanded⟩ := horderly.expanded f (hdrains.reached.1 h).1
  rw [hm] at hm'
  cases hm'
  exact hexpanded

/-- Nothing is missing. -/
theorem closed_resolved (p : Program) (precision : Precision) (entries : List MethodSig) :
    (resolved p precision entries).Closed p entries := by
  obtain ⟨hdrains, horderly⟩ := drains_resolution precision
    (Outcome.closed_all p entries) fun _ _ => trivial
  have hconsistent := consistent_resolution p precision entries
  refine ⟨fun m hm hbody => ?_, ?_, ?_, ?_, ?_⟩
  · obtain ⟨f, hf, hmethod⟩ := (mem_entries p entries).2 m hm
    exact reached_of_scheduled (hdrains.extended.scheduled (Or.inl hf))
      (hdrains.extended.graph.method hmethod) hbody
  · rintro m ⟨f, hf, hm⟩ c hc
    exact (expanded_of_reached hf hm).1 c hc
  · rintro m ⟨f, hf, hm⟩ stmt i t hi ht
    obtain ⟨callee, hcallee, htakes⟩ := ((expanded_of_reached hf hm).2 hi).fixed ht
    exact ⟨⟨f, hf, hm⟩, f, callee, hm, hcallee, htakes.1⟩
  · rintro m ⟨f, hf, hm⟩ stmt i targets hi htargets c t hmem hc
    obtain ⟨callee, hcallee, htakes | hparked⟩ :=
      ((expanded_of_reached hf hm).2 hi).virtual htargets hmem
    · exact ⟨⟨f, hf, hm⟩, f, callee, hm, hcallee, htakes.1⟩
    · -- A call is parked for a class that does not count.
      have hno := (horderly.within.parked _ hparked).1
      exact absurd (hc.symm.trans hno) (by simp)
  · rintro call ⟨⟨f₀, hf₀, hm₀⟩, f, f', hm, hm', hcalls⟩ hbody
    rcases horderly.taken hcalls with hcalls | hmet
    · -- A call by name was there before, and was followed when its caller was expanded.
      obtain ⟨m, i, hmethod, hcallee, hi, hkind, -⟩ := onlyNamed_direct p entries hcalls
      have hsame : call.caller = m :=
        Option.some.inj (hm.symm.trans (horderly.grows.method hmethod))
      subst hsame
      obtain ⟨callee, hcallee', htakes⟩ :=
        ((expanded_of_reached hf₀ hm₀).2 hi).fixed (Program.dispatch_named hkind)
      have hf' : callee = f' :=
        hconsistent.distinct hcallee' (horderly.grows.method hcallee)
      exact reached_of_scheduled (hf' ▸ htakes.2) hm' hbody
    · exact reached_of_scheduled hmet hm' hbody

/-- A call that was recorded is in every closed outcome for which the search was bounded, or was
recorded from the start. -/
theorem calls_of_records (ho : o.Closed p entries)
    (hall : precision = .hierarchy → ∀ c, c ∈ o.allocated) {call : Call}
    (h : (resolution p precision entries).2.graph.Records call) :
    (direct p entries).2.Records call ∨ call ∈ o.calls := by
  obtain ⟨-, horderly⟩ := drains_resolution _ ho hall
  obtain ⟨f, f', hm, hm', hcalls⟩ := h
  rcases horderly.within.recorded hcalls with hcalls | ⟨m, t, hf, hf', hmem⟩
  · obtain ⟨m, i, hf, hf', -⟩ := onlyNamed_direct p entries hcalls
    rw [horderly.grows.method hf] at hm
    rw [horderly.grows.method hf'] at hm'
    cases hm
    exact Or.inl ⟨f, f', hf, by rw [hf', hm'], hcalls⟩
  · rw [hm] at hf
    rw [hm'] at hf'
    cases hf
    cases hf'
    exact Or.inr hmem

theorem reached_subset (ho : o.Closed p entries)
    (hall : precision = .hierarchy → ∀ c, c ∈ o.allocated) :
    (resolved p precision entries).reached ⊆ o.reached := by
  obtain ⟨hdrains, horderly⟩ := drains_resolution _ ho hall
  rintro m ⟨f, hf, hm⟩
  obtain ⟨hprocessed, -, m', hm', hbody⟩ := hdrains.reached.1 hf
  obtain rfl : m = m' := Option.some.inj (hm.symm.trans hm')
  obtain ⟨m', hm', hreached⟩ := horderly.within.scheduled (Or.inr hprocessed)
  obtain rfl : m = m' := Option.some.inj (hm.symm.trans hm')
  exact hreached hbody

/-- Nothing is found that a closed outcome does not have. -/
theorem resolved_le (ho : o.Closed p entries)
    (hall : precision = .hierarchy → ∀ c, c ∈ o.allocated) :
    resolved p precision entries ≤ o := by
  obtain ⟨-, horderly⟩ := drains_resolution _ ho hall
  have hreached := reached_subset ho hall
  refine ⟨hreached, fun c hc => horderly.within.counts hc, ?_⟩
  rintro ⟨caller, callee, stmt, kind⟩ ⟨hcaller, hrecords⟩
  rcases calls_of_records ho hall hrecords with ⟨f, f', hm, hm', hcalls⟩ | hmem
  · obtain ⟨m, i, hf, hf', hi, hkind, rfl⟩ := onlyNamed_direct p entries hcalls
    obtain rfl : m = caller := Option.some.inj (hf.symm.trans hm)
    obtain rfl : i.method = callee := Option.some.inj (hf'.symm.trans hm')
    exact ho.fixed m (hreached hcaller) stmt i i.method hi (Program.dispatch_named hkind)
  · exact hmem

/-! ## Rapid types -/

theorem isLeast_resolved (p : Program) (entries : List MethodSig) :
    IsLeast {o | o.Closed p entries} (resolved p .rapidTypes entries) :=
  ⟨closed_resolved p .rapidTypes entries, fun _ ho => resolved_le ho fun h => nomatch h⟩

/-- Whatever the order of the calls that are met and the classes that are allocated: what is
found from the entries is the least closed outcome. A call on a receiver is recorded for exactly the
classes that are allocated somewhere, and the order of the entries does not matter. -/
theorem isLeast_rapidTypes (p : Program) (entries : List MethodSig) :
    (resolution p .rapidTypes entries).2.queue = [] ∧
    IsLeast {o | o.Closed p entries} (resolved p .rapidTypes entries) ∧
    (∀ call, call ∈ (resolved p .rapidTypes entries).calls ↔
      (resolved p .rapidTypes entries).Makes p call) ∧
    ∀ entries', (∀ m, m ∈ entries' ↔ m ∈ entries) →
      resolved p .rapidTypes entries' = resolved p .rapidTypes entries := by
  have hleast := isLeast_resolved p entries
  refine ⟨queue_resolution p .rapidTypes entries, hleast,
    fun call => Outcome.mem_calls_iff hleast, ?_⟩
  intro entries' hsame
  have hleast' := isLeast_resolved p entries'
  simp only [Outcome.closed_congr hsame] at hleast'
  exact hleast'.unique hleast

/-- What rapid types find, the class hierarchy finds too: the methods that are reached, and every
call that is recorded anywhere. -/
theorem rapidTypes_within_hierarchy (p : Program) (entries : List MethodSig) :
    (∀ f ∈ (CallGraph.addResolved {} p .rapidTypes entries).1, ∃ m,
      (CallGraph.addResolved {} p .rapidTypes entries).2.methodOf? f = some m ∧
      ∃ f' ∈ (CallGraph.addResolved {} p .hierarchy entries).1,
        (CallGraph.addResolved {} p .hierarchy entries).2.methodOf? f' = some m) ∧
    ∀ call, (CallGraph.addResolved {} p .rapidTypes entries).2.Records call →
      (CallGraph.addResolved {} p .hierarchy entries).2.Records call := by
  have hclosed := closed_resolved p .hierarchy entries
  have hno : Precision.rapidTypes = .hierarchy →
      ∀ c, c ∈ (resolved p .hierarchy entries).allocated := fun h => nomatch h
  constructor
  · intro f hf
    obtain ⟨hdrains, -⟩ := drains_resolution _ hclosed hno
    obtain ⟨-, -, m, hm, -⟩ := hdrains.reached.1 hf
    exact ⟨m, hm, reached_subset hclosed hno ⟨f, hf, hm⟩⟩
  · intro call hcall
    obtain ⟨-, horderly⟩ := drains_resolution .hierarchy
      (Outcome.closed_all p entries) fun _ _ => trivial
    rcases calls_of_records hclosed hno hcall with hdirect | hmem
    · exact hdirect.mono horderly.grows
    · exact hmem.2

end Resolver

/-- What labels the edges of a graph to start from are statements that make calls. -/
theorem Seed.invokes_of_labels {p : Program} {entries : List MethodSig} (seed : Seed)
    {stmt : StmtId} (h : (seed.graph p entries).Labels stmt) : ∃ i, p.invokeOf? stmt = some i := by
  obtain ⟨src, dst, kind, hcalls⟩ := h.calls (seed.graph_simple p entries)
  cases seed with
  | direct =>
    obtain ⟨m, i, -, -, hi, -⟩ := Resolver.onlyNamed_direct p entries hcalls
    exact ⟨i, hi.choose_spec.2.2⟩
  | classHierarchy => exact Resolver.invokes_of_calls .hierarchy hcalls
  | rapidTypes => exact Resolver.invokes_of_calls .rapidTypes hcalls

end PointsTo
