import PointsTo.Builder.Connect
import PointsTo.Proofs.Builder.Summaries
import PointsTo.Proofs.Fuel
import PointsTo.Proofs.Links.States
import PointsTo.Proofs.Program.Vocabulary

/-!
# Requests keep links complete

Whatever the builder is asked for, it makes nodes, edges and links by the few requests that are
known to keep it linked, from any state on. Summarising a method lists all its free locals, and no
static calls but those of the call graph.

How a callee is entered is left open: what is said of connecting a call holds of any relation that
entering and finding a context guarantee (`Enter.Guarantees`).
-/

namespace PointsTo

open Builder (KeepsRequests KeepsLinked)

variable {p : Program} {b : Builder}

namespace Build

/-! ## Nodes -/

theorem addEdge_keepsRequests {kind : EdgeKind} {src dst : NodeId} :
    Guarantees (KeepsRequests p) (addEdge kind src dst) :=
  .of_spec fun _ => addEdge_linkSpec

theorem addSite_keepsRequests {n : NodeId} {site : SiteRef} :
    Guarantees (KeepsRequests p) (addSite n site) :=
  .of_spec fun _ => addSite_linkSpec

theorem funcOf_keepsRequests {m : MethodSig} {missing : FuncKind} :
    Guarantees (KeepsRequests p) (funcOf p m missing) :=
  .of_spec fun _ => funcOf_linkSpec

theorem addCall_keepsRequests {src dst : FuncId} {stmt : StmtId} {kind : CallKind} :
    Guarantees (KeepsRequests p) (addCall src dst stmt kind) :=
  .of_spec fun _ => addCall_linkSpec

theorem nodeWithKind_keepsRequests {cid : ContextId} {e : Entity} {kind : NodeKind} :
    Guarantees (KeepsRequests p) (nodeWithKind p cid e kind) :=
  .of_spec fun _ => nodeWithKind_linkSpec

theorem fieldNode_keepsRequests {obj : NodeId} {key : FieldKey} {cloneOf : Option NodeId} :
    Guarantees (KeepsRequests p) (fieldNode obj key cloneOf) :=
  .of_spec fun _ => fieldNode_linkSpec

/-- What the builder keeps for itself has nothing to do with links. -/
theorem keepsRequests_note (b : Builder) (singletons : List (FuncId × Bool))
    (unhandled : List MethodSig)
    (answers : Builder.KeepsAnswers p b { b with singletons, unhandled })
    (hunhandled : b.unhandled ⊆ unhandled) : KeepsRequests p b { b with singletons, unhandled } :=
  .of_same .rfl rfl rfl id Or.inl answers .rfl rfl rfl rfl rfl (fun hb => hb.of_same rfl rfl rfl)
    ⟨rfl, id, hunhandled⟩

theorem addUnhandled_keepsRequests {m : MethodSig} :
    Guarantees (KeepsRequests p) (addUnhandled m) := by
  intro b
  show KeepsRequests p b (if _ then _ else _)
  split
  · exact refl_of (KeepsRequests p) b
  · exact keepsRequests_note b b.singletons _ (.of_same id rfl rfl) (List.subset_append_left _ _)

/-- Neither has what is asked for. -/
theorem keepsLinked_requests (b : Builder) {contexts : ContextTable}
    {pending : List (FuncId × ContextId)} (hc : b.contexts.Extends contexts)
    (hproper : b.contexts.Proper (fun _ => True) → contexts.Proper fun _ => True)
    (hp : b.pending <+: pending) : KeepsLinked p b { b with contexts, pending } where
  toKeepsAnswers := .of_same id rfl rfl
  pag := .rfl
  link := id
  summary := id
  graph := .rfl
  entries := rfl
  built := rfl
  linked hb := ⟨hb.unique, hb.target, hb.linkEdges, hb.captureLinks, hb.free⟩
  contexts := hc
  pending := hp
  wellFormed hb := ⟨hb.graph, hb.summary, hproper hb.contexts⟩
  factsAndCalls := .of_same rfl rfl rfl

theorem entryContext_keepsLinked {f : FuncId} : Guarantees (KeepsLinked p) (entryContext f) :=
  fun b => keepsLinked_requests b (b.contexts.entry_extends f) (fun hb => hb.entry fun _ => trivial)
    List.prefix_rfl

theorem selectContext_keepsLinked {caller : ContextId} {site : CallSiteId} {obj : Option NodeId}
    {callee : FuncId} : Guarantees (KeepsLinked p) (selectContext caller site obj callee) :=
  fun b => keepsLinked_requests b (b.contexts.select_extends caller site obj callee)
    (fun hb => hb.select (fun _ => trivial) (fun _ _ _ => trivial) fun _ => trivial)
    List.prefix_rfl

/-- Afterwards the method waits to be laid out. -/
theorem enqueue_linkSpec {f : FuncId} {cid : ContextId} :
    TryTerminates AnyFailure (KeepsLinked p) (enqueue f cid) b fun _ b' => (f, cid) ∈ b'.pending :=
  .modify (keepsLinked_requests b .rfl id (List.prefix_append _ _))
    (List.mem_append_right _ (List.mem_singleton_self _))

theorem enqueue_keepsLinked {o : Outcomes} {f : FuncId} {cid : ContextId} :
    GuaranteesOn o (KeepsLinked p) (enqueue f cid) :=
  .of_spec fun _ => enqueue_linkSpec.trySpec

theorem kindOfValue_keepsRequests {baseNode : ValueId → Build (Option NodeId)}
    (hbase : ∀ v, Guarantees (KeepsRequests p) (baseNode v)) (v : ValueId) :
    Guarantees (KeepsRequests p) (kindOfValue p baseNode v) := by
  unfold kindOfValue
  split
  case h_5 => exact .bind funcOf_keepsRequests fun _ => .pure
  case h_7 => exact .bind (hbase _) fun _ => .pure
  case h_8 => exact .bind (hbase _) fun _ => .pure
  all_goals exact .pure

theorem kindOf_keepsRequests {baseNode : ValueId → Build (Option NodeId)}
    (hbase : ∀ v, Guarantees (KeepsRequests p) (baseNode v)) (e : Entity) :
    Guarantees (KeepsRequests p) (kindOf p baseNode e) := by
  cases e with
  | value v => exact kindOfValue_keepsRequests hbase v
  | _ => exact .pure

/-- The node that was asked for is there. -/
theorem obtain_linkSpec {baseNode : ContextId → ValueId → Build (Option NodeId)}
    (hbase : ∀ cid v, Guarantees (KeepsRequests p) (baseNode cid v))
    (cid : ContextId) (e : Entity) :
    Spec (KeepsRequests p) (obtain p baseNode cid e) b fun n b' =>
      b'.pag.find? (contextOf b.pag cid e) e = some n := by
  unfold obtain
  refine .get_bind ?_
  dsimp only
  split
  · rename_i n hn
    exact .pure hn
  · exact .seq (kindOf_keepsRequests (hbase _) e).spec fun _ _ _ => nodeWithKind_linkSpec

theorem nodeWithin_keepsRequests (depth : Nat) (cid : ContextId) (e : Entity) :
    Guarantees (KeepsRequests p) (nodeWithin p depth cid e) := by
  induction depth generalizing cid e with
  | zero => exact .of_spec fun _ => obtain_linkSpec (fun _ _ => .pure) cid e
  | succ depth ih => exact .of_spec fun _ => obtain_linkSpec (fun cid v => (ih cid _).map) cid e

theorem nodeOf_linkSpec {cid : ContextId} {e : Entity} :
    Spec (KeepsRequests p) (nodeOf p cid e) b fun n b' =>
      b'.pag.find? (contextOf b.pag cid e) e = some n := by
  unfold nodeOf
  cases depth e with
  | zero => exact obtain_linkSpec (fun _ _ => .pure) cid e
  | succ depth =>
      exact obtain_linkSpec (fun cid v => (nodeWithin_keepsRequests depth cid _).map) cid e

theorem nodeOf_keepsRequests {cid : ContextId} {e : Entity} :
    Guarantees (KeepsRequests p) (nodeOf p cid e) :=
  .of_spec fun _ => nodeOf_linkSpec

theorem valueNode_keepsRequests {cid : ContextId} {v : ValueId} :
    Guarantees (KeepsRequests p) (valueNode p cid v) :=
  nodeOf_keepsRequests

theorem argNodes_keepsRequests {cid : ContextId} (args : List ValueId) (index : Nat) :
    Guarantees (KeepsRequests p) (argNodes p cid args index) := by
  induction args generalizing index with
  | nil => exact .pure
  | cons a args ih =>
    unfold argNodes
    split
    · exact .bind valueNode_keepsRequests fun _ => .bind (ih (index + 1)) fun _ => .pure
    · exact ih (index + 1)

end Build

/-! ## Free locals and static calls in summaries -/

namespace Summarize

/-- The free locals are the same. -/
def KeepsFree (s s' : Summarizer) : Prop :=
  s'.summary.free = s.summary.free

instance : IsPreorder Summarizer KeepsFree where
  refl _ := rfl
  trans _ _ _ h h' := h'.trans h

/-- They are, and more static calls come from the call graph only. -/
structure Collects (g : CallGraph) (s s' : Summarizer) : Prop where
  free : KeepsFree s s'
  sites : ∀ site ∈ s'.summary.staticCalls, site ∈ s.summary.staticCalls ∨ site ∈ g.sites

instance (g : CallGraph) : IsPreorder Summarizer (Collects g) where
  refl s := ⟨refl_of KeepsFree s, fun _ => Or.inl⟩
  trans _ _ _ h h' := ⟨trans_of KeepsFree h.free h'.free, fun site hsite =>
    (h'.sites site hsite).elim (h.sites site) Or.inr⟩

variable {g : CallGraph} {s : Summarizer}

theorem change_collects {f : Summary → Summary} (hfree : (f s.summary).free = s.summary.free)
    (hsites : (f s.summary).staticCalls = s.summary.staticCalls) :
    TryTerminates AnyFailure (Collects g) (change f) s fun _ _ => True :=
  .modify ⟨hfree, fun _ hsite => Or.inl (hsites ▸ hsite)⟩ trivial

theorem canonical_collects {base access : ValueId} {key : FieldKey} :
    TryTerminates AnyFailure (Collects g) (canonical base key access) s fun _ _ => True := by
  unfold canonical
  refine .get_bind ?_
  split
  · exact .pure trivial
  · exact .modify_bind ⟨rfl, fun _ => Or.inl⟩ (.pure trivial)

theorem reading_collects {right : ValueId} :
    TryTerminates AnyFailure (Collects g) (reading p right) s fun _ _ => True := by
  unfold reading
  split
  case h_11 => exact .seq canonical_collects fun _ _ _ => .pure trivial
  case h_12 => exact .seq canonical_collects fun _ _ _ => .pure trivial
  all_goals exact .pure trivial

theorem assign_collects {stmt : StmtId} {left right : ValueId} :
    TryTerminates AnyFailure (Collects g) (assign p stmt left right) s fun _ _ => True := by
  have addEdge : ∀ kind src dst s, TryTerminates AnyFailure (Collects g) (change fun s =>
      s.addEdge kind src dst stmt) s fun _ _ => True := fun _ _ _ _ => change_collects rfl rfl
  have write : ∀ base key, TryTerminates AnyFailure (Collects g) (do
      let dst ← canonical base key left
      change fun s => s.addEdge .write (.value right) dst stmt) s fun _ _ => True :=
    fun base key => .seq canonical_collects fun _ _ _ => addEdge _ _ _ _
  unfold assign
  split
  · refine .seq reading_collects fun read _ _ => ?_
    split
    · exact addEdge _ _ _ _
    · exact .pure trivial
  · split
    · exact write _ _
    · exact .pure trivial
  · split
    · exact write _ _
    · exact .pure trivial
  · split
    · exact addEdge _ _ _ _
    · split
      · exact addEdge _ _ _ _
      · exact .pure trivial
  · exact .pure trivial
  · exact .pure trivial
  · exact .throw nofun trivial

theorem call_collects {stmt : StmtId} :
    TryTerminates AnyFailure (Collects g) (call p g stmt) s fun _ _ => True := by
  unfold call
  split
  · exact .pure trivial
  · refine change_collects ?_ ?_
    all_goals split <;> rfl
  · refine .modify ?_ trivial
    dsimp only
    rw [Summary.foldl_addStaticCall]
    refine ⟨rfl, fun site hsite => (List.mem_append.1 hsite).imp_right fun hnew => ?_⟩
    exact Array.mem_toList_iff.1 (List.mem_filter.1 hnew).1

theorem stmt_collects {id : StmtId} :
    TryTerminates AnyFailure (Collects g) (stmt p g id) s fun _ _ => True := by
  unfold stmt
  split
  · split
    · exact call_collects
    · exact assign_collects
  · exact call_collects
  · split
    · refine change_collects ?_ ?_
      all_goals rw [Summary.addReturn_eq]
    · exact .pure trivial
  · exact .pure trivial

theorem stmts_collect {stmts : List StmtId} :
    TryTerminates AnyFailure (Collects g) (stmts.forM (stmt p g)) s fun _ _ => True :=
  .forM_any fun _ _ _ _ => stmt_collects

theorem stmt_keepsFree {id : StmtId} : TryGuarantees KeepsFree (stmt p g id) :=
  .of_spec fun _ => stmt_collects.trySpec.weaken fun _ h => h.free

/-- A free local is left out only if it is listed already. -/
theorem mem_foldl_addFree {free : List FreeLocal} {s : Summary} {x : FreeLocal}
    (h : ∀ y, y ∈ s.free ∨ y ∈ free → freeLocal? p y.name = some y)
    (hx : x ∈ s.free ∨ x ∈ free) : x ∈ (free.foldl Summary.addFree s).free := by
  induction free generalizing s with
  | nil => exact hx.resolve_right List.not_mem_nil
  | cons f free ih =>
    have hadd : ∀ y, y ∈ (s.addFree f).free ↔ y ∈ s.free ∨ y = f := by
      intro y
      unfold Summary.addFree
      split
      · rename_i hlisted
        obtain ⟨z, hz, hname⟩ := List.any_eq_true.1 hlisted
        have hzf : z = f := by
          have hlocal := h z (Or.inl hz)
          rw [beq_iff_eq.1 hname, h f (Or.inr List.mem_cons_self)] at hlocal
          exact (Option.some.inj hlocal).symm
        refine ⟨Or.inl, ?_⟩
        rintro (hy | rfl)
        · exact hy
        · exact hzf ▸ hz
      · simp
    have hmem : ∀ y, y ∈ (s.addFree f).free ∨ y ∈ free ↔ y ∈ s.free ∨ y ∈ f :: free := by
      intro y
      rw [hadd, List.mem_cons, or_assoc]
    exact ih (fun y hy => h y ((hmem y).1 hy)) ((hmem x).2 hx)

theorem method_listsFree {f : FuncId} {m : MethodSig}
    (hm : g.methodOf? f = some m) {s : Summarizer} (h : method p g f m = (.ok (), s)) :
    s.summary.ListsFree p g f := by
  refine ⟨m, hm, fun decl hdecl v hv x hx => ?_⟩
  unfold method at h
  rw [hdecl] at h
  obtain ⟨_, s₁, hloop, hchange⟩ := TryGuarantees.of_bind h
  have hnone : s₁.summary.free = [] := (stmts_collect.trySpec.of_run hloop).1.free
  cases hchange
  refine mem_foldl_addFree (p := p) (fun y hy => ?_)
    (Or.inr (List.mem_filterMap.2 ⟨v, hv, hx⟩))
  rw [hnone] at hy
  obtain ⟨w, -, hw⟩ := List.mem_filterMap.1 (hy.resolve_left List.not_mem_nil)
  rw [(Program.isLocal_of_freeLocal? hw).1]
  exact hw

/-- The summary of a method is drawn from the call graph. -/
theorem method_fromGraph (hg : g.Consistent p) {f : FuncId} {m : MethodSig}
    (hm : g.methodOf? f = some m) {s : Summarizer} (h : method p g f m = (.ok (), s)) :
    s.summary.FromGraph g := by
  have hsound := method_sound hg hm h
  refine ⟨fun e he => ⟨(hsound.edges e he).src, (hsound.edges e he).dst⟩, fun site hsite => ?_⟩
  unfold method at h
  split at h
  · obtain ⟨_, s₁, hloop, hchange⟩ := TryGuarantees.of_bind h
    have hcollects := (stmts_collect.trySpec.of_run hloop).1
    cases hchange
    dsimp only at hsite
    rw [Summary.foldl_addFree] at hsite
    exact (hcollects.sites site hsite).resolve_left List.not_mem_nil
  · cases h
    exact absurd hsite List.not_mem_nil

end Summarize

namespace Build

theorem keepsRequests_foldl_addBaseRef (refs : List ((ValueId × FieldKey) × ValueId))
    (b : Builder) :
    KeepsRequests p b { b with pag := refs.foldl (fun g r => g.addBaseRef r.1.1 r.2) b.pag } := by
  induction refs generalizing b with
  | nil => exact refl_of (KeepsRequests p) b
  | cons r refs ih =>
    have hone : KeepsRequests p b { b with pag := b.pag.addBaseRef r.1.1 r.2 } :=
      .of_same (b.pag.addBaseRef_extends r.1.1 r.2) (by rw [Pag.nodes_addBaseRef]) rfl id Or.inl
        (.of_same id rfl rfl) .rfl rfl rfl rfl rfl (fun hb => hb.of_same rfl rfl rfl)
        (.of_same (Pag.ptsOf_congr (Pag.nodes_addBaseRef ..)) rfl rfl)
    exact trans_of (KeepsRequests p) hone (ih { b with pag := b.pag.addBaseRef r.1.1 r.2 })

theorem methodOf_linkSpec {f : FuncId} :
    TryTerminates (fun _ => b.graph.methodOf? f = none) (KeepsRequests p)
    (methodOf f) b fun m b' => b' = b ∧ b.graph.methodOf? f = some m := by
  unfold methodOf
  refine .get_bind ?_
  split
  · rename_i m hm
    exact .pure ⟨rfl, hm⟩
  · rename_i hnone
    exact .throw nofun hnone

/-- Afterwards the method has a summary. What was asked of methods is not touched. A method that the
call graph has fails to be summarised for a statement that assigns to no place only. -/
theorem summarize_linkSpec {f : FuncId} :
    TryTerminates (fun e => b.graph.methodOf? f = none ∨ p.IsMisplaced e)
      (KeepsRequests p) (summarize p f) b fun _ b' =>
        (∃ s, b'.summary? f = some s) ∧ b'.singletons = b.singletons ∧ b'.graph = b.graph := by
  unfold summarize
  refine .get_bind ?_
  dsimp only
  split
  · rename_i hsome
    exact .pure ⟨Option.isSome_iff_exists.1 hsome, rfl, rfl⟩
  · refine .bind (methodOf_linkSpec.weaken (fun _ => Or.inl) fun _ => id) fun m b₁ _ ⟨hb, hm⟩ =>
      .get_bind ?_
    subst hb
    generalize hr : Summarize.method p b₁.graph f m = r
    obtain ⟨result, s⟩ := r
    refine .modify_bind (keepsRequests_foldl_addBaseRef s.refs b₁) ?_
    cases result with
    | error e =>
      have hfails := Summarize.method_fails (congrArg Prod.fst hr)
      exact .throw hfails.ne_outOfFuel (Or.inr hfails)
    | ok x =>
      have hlists := Summarize.method_listsFree hm hr
      refine .modify_bind (.of_same .rfl rfl rfl (fun {f' s'} hs => ?_) (fun {f' s'} hs => ?_)
        (.of_summary hm (Summarize.method_isExact hr)) .rfl rfl rfl rfl rfl
        (fun hb => ⟨hb.graph, fun {f' s'} hs => ?_, hb.contexts⟩)
        (.of_same rfl rfl rfl)) (.pure ⟨Option.isSome_iff_exists.1 ?_, rfl, rfl⟩)
      · unfold Builder.summary? at hs ⊢
        rw [List.lookup_append, hs]
        rfl
      · refine (List.mem_append.1 hs).imp_right fun hs => ?_
        cases List.mem_singleton.1 hs
        exact hlists
      · rcases List.mem_append.1 hs with hs | hs
        · exact hb.summary hs
        · cases List.mem_singleton.1 hs
          exact Summarize.method_fromGraph hb.graph hm hr
      · simp [Builder.summary?, List.lookup_append]

theorem methodOf_keepsRequests {o : Outcomes} {f : FuncId} :
    GuaranteesOn o (KeepsRequests p) (methodOf f) :=
  .of_spec fun _ => methodOf_linkSpec.trySpec

/-- What has been answered is answered again, and nothing changes. -/
theorem run_isSingleton_of_known {f : FuncId} {answer : Bool}
    (h : b.singletons.lookup f = some answer) : (isSingleton p f).run.run b = (.ok answer, b) := by
  unfold isSingleton
  rw [run_get_bind, h]
  rfl

/-- The answer is noted. -/
theorem isSingleton_linkSpec {f : FuncId} :
    TryTerminates p.IsMisplaced (KeepsRequests p) (isSingleton p f) b fun single b' =>
      b'.singletons.lookup f = some single ∧ b'.graph = b.graph := by
  have keep : ∀ answer (b : Builder), b.singletons.lookup f = none →
      (b.SummariesExact p → (answer = true ↔ b.Shares p f)) →
      TryTerminates p.IsMisplaced (KeepsRequests p) (do
        modify fun b => { b with singletons := b.singletons ++ [(f, answer)] }
        return answer : TryBuild Bool) b fun single b' =>
          b'.singletons.lookup f = some single ∧ b'.graph = b.graph := by
    intro answer b hnew hright
    refine .modify_bind
      (keepsRequests_note b _ b.unhandled (.of_answer hright) (List.Subset.refl _))
      (.pure ⟨?_, rfl⟩)
    simp [List.lookup_append, hnew]
  unfold isSingleton
  refine .get_bind ?_
  split
  · rename_i known hknown
    exact .pure ⟨hknown, rfl⟩
  · rename_i hnew
    refine .get_bind ?_
    dsimp only
    split
    · rename_i hbody
      obtain ⟨decl, hdecl, hboth⟩ := Option.any_eq_true .. |>.1 hbody
      obtain ⟨m, hm, hdecl⟩ := Option.bind_eq_some_iff.1 hdecl
      obtain ⟨hstatic, hbody⟩ := Bool.and_eq_true .. |>.mp hboth
      have hsummarize := summarize_linkSpec (p := p) (b := b) (f := f)
      rw [hm] at hsummarize
      refine .bind (hsummarize.weaken (fun _ he => he.resolve_left nofun) fun _ => id)
        fun _ b₁ h₁ ⟨hsummary, hsame, hgraph⟩ => .get_bind ?_
      rw [← hgraph]
      refine keep _ b₁ ?_ ?_
      · rw [hsame]
        exact hnew
      · intro hb
        obtain ⟨s, hs⟩ := hsummary
        rw [hs, Option.any_some]
        exact hb.returnsShared_iff hs (h₁.graph.method hm) hdecl hstatic hbody
    · rename_i hother
      exact keep _ b hnew fun _ =>
        ⟨nofun, fun hshares => absurd hshares (Builder.not_shares hother)⟩

/-! ## Calls -/

/-- The context that is found is the one of the call. -/
theorem calleeContext_linkSpec {c : CallBinding} :
    TryTerminates AnyFailure (KeepsLinked p) (calleeContext p c) b fun cid b' =>
      Builder.CallContext b b' c.callerCid c.site c.contextObj c.callee cid := by
  unfold calleeContext
  refine .bind (isSingleton_linkSpec.weaken (fun _ _ => trivial) fun _ h => h.toKeepsLinked)
    fun single b₁ h₁ ⟨hsingle, _⟩ => ?_
  cases single with
  | true => exact .pure (.shared hsingle)
  | false => exact .lift ⟨selectContext_keepsLinked b₁, .chosen hsingle h₁.contexts .rfl⟩

/-- The receiver of an arrow function is that of the method around it. -/
theorem connectOuterThis_keepsRequests {c : CallBinding} {m : MethodDecl} {dst : NodeId} :
    Guarantees (KeepsRequests p) (do
      if m.sig.isArrow then
        if let some outerThis := m.outer.bind p.thisLocal? then
          let src ← valueNode p (c.functionCid.getD c.callerCid) outerThis
          discard (addEdge .this src dst)) := by
  split
  · split
    · exact .bind valueNode_keepsRequests fun _ => .discard addEdge_keepsRequests
    · exact .pure
  · exact .pure

theorem connectThis_keepsRequests {c : CallBinding} {m : MethodDecl} {cid : ContextId} :
    Guarantees (KeepsRequests p) (connectThis p c m cid) := by
  unfold connectThis
  split
  · refine .bind valueNode_keepsRequests fun dst => ?_
    dsimp only
    split
    · exact .bind (.discard addEdge_keepsRequests) fun _ => connectOuterThis_keepsRequests
    · exact connectOuterThis_keepsRequests
  · exact .pure

/-- The result and the receiver. -/
theorem connectResult_keepsRequests {c : CallBinding} {m : MethodDecl} {cid : ContextId} :
    Guarantees (KeepsRequests p) (do
      if let some dst := c.result then
        (p.returnValues m.sig).forM fun v => do
          discard (addEdge .copy (← valueNode p cid v) dst)
      connectThis p c m cid) := by
  split
  · refine .bind (.forM fun v _ => ?_) fun _ => connectThis_keepsRequests
    exact .bind valueNode_keepsRequests fun _ => .discard addEdge_keepsRequests
  · exact connectThis_keepsRequests

theorem connectFlow_keepsRequests {c : CallBinding} {m : MethodDecl} {cid : ContextId} :
    Guarantees (KeepsRequests p) (connectFlow p c m cid) := by
  unfold connectFlow
  refine .bind (.forM fun arg _ => ?_) fun _ => ?_
  · split
    · exact .bind valueNode_keepsRequests fun _ => .discard addEdge_keepsRequests
    · exact .pure
  · dsimp only
    split
    · refine .bind (.forM fun param _ => ?_) fun _ => connectResult_keepsRequests
      exact .bind valueNode_keepsRequests fun _ => .discard addEdge_keepsRequests
    · exact connectResult_keepsRequests

end Build

/-- Finding a context and entering a callee keep to `R`, for the outcomes that count, and so do
requests that ask for no methods. -/
structure Enter.Guarantees (p : Program) (o : Outcomes) (R : Builder → Builder → Prop)
    (enter : Enter) : Prop where
  keepsRequests : ∀ {b b'}, KeepsRequests p b b' → R b b'
  context : ∀ {caller site obj callee},
    PointsTo.Guarantees R (Build.selectContext caller site obj callee)
  enter : ∀ {f cid}, GuaranteesOn o R (enter f cid)

variable {o : Outcomes} {R : Builder → Builder → Prop} {enter : Enter}

/-- A request as a step that may fail. -/
theorem Enter.Guarantees.lift {α : Type} {m : Build α} (h : enter.Guarantees p o R)
    (hm : PointsTo.Guarantees (KeepsRequests p) m) : GuaranteesOn o R (liftM m : TryBuild α) :=
  .lift (hm.weaken h.keepsRequests)

namespace Build

variable [IsPreorder Builder R]

theorem calleeContext_guarantees {binding : CallBinding} (h : enter.Guarantees p o R) :
    GuaranteesOn o R (calleeContext p binding) := by
  have hsingle : GuaranteesOn o (KeepsRequests p) (isSingleton p binding.callee) :=
    .of_spec fun _ => isSingleton_linkSpec.trySpec
  unfold calleeContext
  refine .bind (hsingle.weaken h.keepsRequests) fun single => ?_
  split
  · exact .pure
  · exact .lift h.context

theorem connect_guarantees {binding : CallBinding} (h : enter.Guarantees p o R) :
    GuaranteesOn o R (connect p enter binding) := by
  unfold connect
  refine .bind (methodOf_keepsRequests.weaken h.keepsRequests) fun sig => ?_
  split
  · exact .pure
  · refine .bind (calleeContext_guarantees h) fun cid => .bind h.enter fun _ => ?_
    exact .bind (h.lift connectFlow_keepsRequests) fun _ => .pure

/-- A request that asks for nothing, as one that may. -/
theorem lift_linkSpec {α : Type} {m : Build α} {Q : α → Builder → Prop}
    (h : Spec (KeepsRequests p) m b Q) :
    TryTerminates AnyFailure (KeepsLinked p) (liftM m : TryBuild α) b Q :=
  .lift (h.weaken fun _ h => h.toKeepsLinked)

/-- If the callee has a body, it waits afterwards, in the context of the call. -/
theorem connect_linkSpec {c : CallBinding} :
    TryTerminates AnyFailure (KeepsLinked p) (connect p enqueue c) b fun _ b' =>
      ∀ m, b.graph.methodOf? c.callee = some m → p.hasBody m = true → ∃ cid,
        b'.Requested c.callee cid ∧
          Builder.CallContext b b' c.callerCid c.site c.contextObj c.callee cid := by
  unfold connect
  refine .bind (methodOf_linkSpec.weaken (fun _ _ => trivial) fun _ h => h.toKeepsLinked)
    fun sig b₁ _ ⟨hb, hm⟩ => ?_
  subst hb
  split
  · rename_i hnone
    refine .pure fun m hm' hbody => ?_
    rw [hm] at hm'
    cases hm'
    obtain ⟨decl, hdecl, hbody⟩ := Option.any_eq_true _ _ |>.1 hbody
    have hsome := Option.filter_eq_some_iff.2 ⟨hdecl, hbody⟩
    rw [hnone] at hsome
    cases hsome
  · refine .bind calleeContext_linkSpec fun cid b₂ _ hcid => ?_
    refine .bind enqueue_linkSpec fun _ b₃ h₃ hasked => ?_
    refine .bind (lift_linkSpec connectFlow_keepsRequests.spec) fun _ b₄ h₄ _ =>
      .pure fun _ _ _ => ?_
    exact ⟨cid, Or.inl (h₄.pending.subset hasked), (hcid.mono .rfl h₃.extends).mono .rfl h₄.extends⟩

end Build

end PointsTo
