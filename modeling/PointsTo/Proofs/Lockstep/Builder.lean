import PointsTo.Library.Model
import PointsTo.Proofs.Lockstep.Effects
import PointsTo.Proofs.Lockstep.States

/-!
# Building in lockstep

Every step of the builder, done from builders alike, answers the same and leaves builders alike. The
one answer that may differ is whether a call is the first between two methods, and no step of the
builder asks for it.

How callees are entered is left open: two ways of entering have to match (`Enter.Respects`).
-/

namespace PointsTo

open Builder (Alike)

variable {cmp : Comparison} {p : Program}

/-- The two ways of entering a callee match. -/
def Enter.Respects (cmp : Comparison) (enter enter' : Enter) : Prop :=
  ∀ f cid, TryRespects cmp.strict (Alike cmp) (enter f cid) (enter' f cid)

namespace Build

/-! ## Call graph and contexts -/

theorem funcOf_respects {m : MethodSig} {missing : FuncKind} :
    Respects (Alike cmp) (funcOf p m missing) := by
  refine .modifyGet fun b b' h => ?_
  obtain ⟨hf, hg⟩ := h.graph.nodeFor p m missing
  exact ⟨hf.symm, { h with graph := hg }⟩

/-- Whether the call is new may differ. -/
theorem addCall_alike {src dst : FuncId} {stmt : StmtId} {kind : CallKind} {b b' : Builder}
    (h : b.Alike cmp b') : Alike cmp ((addCall src dst stmt kind).run b).2
      ((addCall src dst stmt kind).run b').2 :=
  { h with graph := (h.graph.addCall src dst stmt kind).2 }

theorem methodOf_respects {f : FuncId} :
    TryRespects cmp.strict (Alike cmp) (methodOf f) (methodOf f) := by
  refine .get_bind fun b b' h => ?_
  rw [h.graph.methodOf?]
  split
  · exact TryRespects.pure.apply h
  · exact TryRespects.throw.apply h

theorem entryContext_respects {f : FuncId} : Respects (Alike cmp) (entryContext f) := by
  refine .modifyGet fun b b' h => ?_
  rw [h.contexts]
  exact ⟨rfl, { h with contexts := rfl }⟩

theorem selectContext_respects {caller : ContextId} {site : CallSiteId} {obj : Option NodeId}
    {callee : FuncId} : Respects (Alike cmp) (selectContext caller site obj callee) := by
  refine .modifyGet fun b b' h => ?_
  rw [h.contexts]
  exact ⟨rfl, { h with contexts := rfl }⟩

theorem addUnhandled_respects {m : MethodSig} : Respects (Alike cmp) (addUnhandled m) := by
  refine .modify fun b b' h => ?_
  rw [h.unhandled]
  split
  · exact h
  · exact { h with unhandled := rfl }

/-! ## Edges, waiting calls, links -/

theorem addEdge_respects {kind : EdgeKind} {src dst : NodeId} :
    Respects (Alike cmp) (addEdge kind src dst) := by
  refine .modifyGet fun b b' h => ?_
  obtain ⟨hn, hg⟩ := h.pag.addEdge kind src dst
  dsimp only
  rw [hn]
  split
  · exact ⟨rfl, { h with pag := hg, newEdges := by rw [h.newEdges] }⟩
  · exact ⟨rfl, h⟩

theorem addSite_respects {n : NodeId} {site : SiteRef} :
    Respects (Alike cmp) (addSite n site) := by
  refine .modifyGet fun b b' h => ?_
  obtain ⟨hn, hg⟩ := h.pag.addSite n site
  dsimp only
  rw [hn]
  split
  · exact ⟨rfl, { h with pag := hg, newSites := by rw [h.newSites] }⟩
  · exact ⟨rfl, h⟩

theorem link_respects {v : ValueId} {target : NodeId} {kind : EdgeKind} :
    Respects (Alike cmp) (link v target kind) := by
  refine .get_bind fun b b' h => ?_
  rw [h.links, h.pag.nodesOf]
  split
  · exact Respects.pure.apply h
  · have hloop : Respects (Alike cmp) ((b.pag.nodesOf v).forM fun n =>
        discard (addEdge kind n target)) := .forM fun _ _ => .discard addEdge_respects
    exact hloop.apply { h with links := rfl }

theorem onNewNode_respects {n : NodeId} {e : Entity} :
    Respects (Alike cmp) (onNewNode p n e) := by
  have hcoming : ∀ v, Respects (Alike cmp) (do
      let coming := (← get).links.filter fun l => l.1 = v
      coming.forM fun l => discard (addEdge l.2.1 n l.2.2)) := by
    intro v
    refine .get_bind fun b b' h => ?_
    rw [h.links]
    exact (Respects.forM fun _ _ => .discard addEdge_respects).apply h
  unfold onNewNode
  split
  · split
    · split
      · exact .bind link_respects fun _ => hcoming _
      · exact hcoming _
    · exact hcoming _
  · exact .pure

/-! ## Nodes -/

theorem nodeWithKind_respects {cid : ContextId} {e : Entity} {kind : NodeKind} :
    Respects (Alike cmp) (nodeWithKind p cid e kind) := by
  refine .get_bind fun b b' h => ?_
  obtain ⟨hn, hg⟩ := h.pag.addNode cid e kind
  generalize b.pag.addNode cid e kind = r at *
  generalize b'.pag.addNode cid e kind = r' at *
  obtain ⟨⟨n, isNew⟩, g⟩ := r
  obtain ⟨_, g'⟩ := r'
  cases hn
  have hrest : Respects (Alike cmp) (do
      if isNew then onNewNode p n e
      return n) := by
    split
    · exact .bind onNewNode_respects fun _ => .pure
    · exact .pure
  exact hrest.apply { h with pag := hg }

theorem kindOfValue_respects {baseNode : ValueId → Build (Option NodeId)}
    (hbase : ∀ v, Respects (Alike cmp) (baseNode v)) {v : ValueId} :
    Respects (Alike cmp) (kindOfValue p baseNode v) := by
  unfold kindOfValue
  split
  · exact .pure
  · exact .pure
  · exact .pure
  · exact .pure
  · exact .bind funcOf_respects fun _ => .pure
  · exact .pure
  · exact .bind (hbase _) fun _ => .pure
  · exact .bind (hbase _) fun _ => .pure
  · exact .pure
  · exact .pure
  · exact .pure

theorem kindOf_respects {baseNode : ValueId → Build (Option NodeId)}
    (hbase : ∀ v, Respects (Alike cmp) (baseNode v)) {e : Entity} :
    Respects (Alike cmp) (kindOf p baseNode e) := by
  cases e with
  | value v => exact kindOfValue_respects hbase
  | _ => exact .pure

theorem obtain_respects {baseNode : ContextId → ValueId → Build (Option NodeId)}
    (hbase : ∀ cid v, Respects (Alike cmp) (baseNode cid v)) {cid : ContextId} {e : Entity} :
    Respects (Alike cmp) (obtain p baseNode cid e) := by
  refine .get_bind fun b b' h => ?_
  have hcid : contextOf b'.pag cid e = contextOf b.pag cid e := by
    cases e with
    | objField obj key => exact h.pag.fieldContext obj
    | _ => rfl
  dsimp only
  rw [hcid, h.pag.find?]
  split
  · exact Respects.pure.apply h
  · exact (Respects.bind (kindOf_respects (hbase _)) fun _ => nodeWithKind_respects).apply h

theorem nodeWithin_respects (depth : Nat) {cid : ContextId} {e : Entity} :
    Respects (Alike cmp) (nodeWithin p depth cid e) := by
  induction depth generalizing cid e with
  | zero => exact obtain_respects fun _ _ => .pure
  | succ depth ih => exact obtain_respects fun _ _ => ih.map

theorem nodeOf_respects {cid : ContextId} {e : Entity} :
    Respects (Alike cmp) (nodeOf p cid e) :=
  nodeWithin_respects _

theorem valueNode_respects {cid : ContextId} {v : ValueId} :
    Respects (Alike cmp) (valueNode p cid v) :=
  nodeOf_respects

theorem fieldNode_respects {obj : NodeId} {key : FieldKey} {cloneOf : Option NodeId} :
    Respects (Alike cmp) (fieldNode obj key cloneOf) := by
  refine .modifyGet fun b b' h => ?_
  rw [h.pag.fieldContext]
  obtain ⟨hn, hg⟩ := h.pag.addNode (b.pag.fieldContext obj) (.objField obj key)
    (.reference (some obj) key cloneOf)
  generalize b.pag.addNode .. = r at *
  generalize b'.pag.addNode .. = r' at *
  obtain ⟨⟨n, isNew⟩, g⟩ := r
  obtain ⟨_, g'⟩ := r'
  cases hn
  exact ⟨rfl, { h with pag := hg }⟩

theorem argNodes_respects {cid : ContextId} (args : List ValueId) (index : Nat) :
    Respects (Alike cmp) (argNodes p cid args index) := by
  induction args generalizing index with
  | nil => exact .pure
  | cons a args ih =>
    unfold argNodes
    split
    · exact .bind valueNode_respects fun _ => .bind (ih _) fun _ => .pure
    · exact ih _

/-! ## Summaries -/

/-- A summary depends on the call sites and the methods only. -/
theorem method_congr {g g' : CallGraph} (h : g.Alike cmp g') (f : FuncId) (m : MethodSig) :
    Summarize.method p g' f m = Summarize.method p g f m := by
  have hcall : Summarize.call p g' = Summarize.call p g := by
    funext stmt
    have hdeclared : Summarize.isDeclared p g' = Summarize.isDeclared p g := by
      funext site
      unfold Summarize.isDeclared
      rw [funext h.methodOf?]
    unfold Summarize.call
    rw [h.sitesAt, h.dynSiteAt?, hdeclared]
  have hstmt : Summarize.stmt p g' = Summarize.stmt p g := by
    funext id
    unfold Summarize.stmt
    rw [hcall]
  unfold Summarize.method Summarize.body
  rw [hstmt]

theorem summarize_respects {f : FuncId} :
    TryRespects cmp.strict (Alike cmp) (summarize p f) (summarize p f) := by
  refine .get_bind fun b b' h => ?_
  rw [h.summary?]
  split
  · exact TryRespects.pure.apply h
  · refine (TryRespects.bind methodOf_respects fun m => ?_).apply h
    refine .get_bind fun b₁ b₁' h₁ => ?_
    rw [method_congr h₁.graph]
    generalize Summarize.method p b₁.graph f m = r
    obtain ⟨result, s⟩ := r
    refine (TryRespects.bind (.modify fun _ _ h₂ => ?_) fun _ => ?_).apply h₁
    · exact { h₂ with pag := h₂.pag.addBaseRefs s.refs }
    · cases result with
      | error e => exact .throw
      | ok _ =>
        exact .bind (.modify fun _ _ h₃ => { h₃ with summaries := by rw [h₃.summaries] })
          fun _ => .pure

theorem isSingleton_respects {f : FuncId} :
    TryRespects cmp.strict (Alike cmp) (isSingleton p f) (isSingleton p f) := by
  have hrecord : ∀ answer, TryRespects cmp.strict (Alike cmp) (do
      modify fun b : Builder => { b with singletons := b.singletons ++ [(f, answer)] }
      return answer : TryBuild Bool) (do
      modify fun b : Builder => { b with singletons := b.singletons ++ [(f, answer)] }
      return answer) := fun answer =>
    .bind (.modify fun _ _ h => { h with singletons := by rw [h.singletons] }) fun _ => .pure
  refine .get_bind fun b b' h => ?_
  rw [h.singletons]
  split
  · exact TryRespects.pure.apply h
  · refine (TryRespects.get_bind fun b₁ b₁' h₁ => ?_).apply h
    rw [h₁.graph.methodOf?]
    refine TryRespects.apply ?_ h₁
    dsimp only
    split
    · refine .bind summarize_respects fun _ => .get_bind fun b₂ b₂' h₂ => ?_
      rw [h₂.summary?]
      exact (TryRespects.bind .pure hrecord).apply h₂
    · exact .bind .pure hrecord

/-! ## Connecting calls -/

theorem enqueue_respects : Enter.Respects cmp enqueue enqueue :=
  fun _ _ => .modify fun _ _ h => { h with pending := by rw [h.pending] }

theorem calleeContext_respects {c : CallBinding} :
    TryRespects cmp.strict (Alike cmp) (calleeContext p c) (calleeContext p c) := by
  refine .bind isSingleton_respects fun single => ?_
  split
  · exact .pure
  · exact .lift selectContext_respects

/-- An arrow function has the receiver of the method it is written in. -/
theorem connectOuterThis_respects {c : CallBinding} {m : MethodDecl} {dst : NodeId} :
    Respects (Alike cmp) (do
      if m.sig.isArrow then
        if let some outerThis := m.outer.bind p.thisLocal? then
          let src ← valueNode p (c.functionCid.getD c.callerCid) outerThis
          discard (addEdge .this src dst)) := by
  split
  · split
    · exact .bind valueNode_respects fun _ => .discard addEdge_respects
    · exact .pure
  · exact .pure

theorem connectThis_respects {c : CallBinding} {m : MethodDecl} {cid : ContextId} :
    Respects (Alike cmp) (connectThis p c m cid) := by
  unfold connectThis
  split
  · refine .bind valueNode_respects fun dst => ?_
    dsimp only
    split
    · exact .bind (.discard addEdge_respects) fun _ => connectOuterThis_respects
    · exact connectOuterThis_respects
  · exact .pure

/-- What comes back from the callee, and the receiver. -/
theorem connectResult_respects {c : CallBinding} {m : MethodDecl} {cid : ContextId} :
    Respects (Alike cmp) (do
      if let some dst := c.result then
        (p.returnValues m.sig).forM fun v => do
          discard (addEdge .copy (← valueNode p cid v) dst)
      connectThis p c m cid) := by
  split
  · refine .bind (.forM fun v _ => ?_) fun _ => connectThis_respects
    exact .bind valueNode_respects fun _ => .discard addEdge_respects
  · exact connectThis_respects

theorem connectFlow_respects {c : CallBinding} {m : MethodDecl} {cid : ContextId} :
    Respects (Alike cmp) (connectFlow p c m cid) := by
  unfold connectFlow
  refine .bind (.forM fun arg _ => ?_) fun _ => ?_
  · split
    · exact .bind valueNode_respects fun _ => .discard addEdge_respects
    · exact .pure
  · dsimp only
    split
    · refine .bind (.forM fun param _ => ?_) fun _ => connectResult_respects
      exact .bind valueNode_respects fun _ => .discard addEdge_respects
    · exact connectResult_respects

theorem connect_respects {enter enter' : Enter} (henter : enter.Respects cmp enter')
    {c : CallBinding} :
    TryRespects cmp.strict (Alike cmp) (connect p enter c) (connect p enter' c) := by
  refine .bind methodOf_respects fun sig => ?_
  split
  · exact .pure
  · refine .bind calleeContext_respects fun cid => .bind (henter _ _) fun _ => ?_
    exact .bind (.lift connectFlow_respects) fun _ => .pure

/-! ## Requests that models share -/

theorem functionCallee_respects {fn : FunctionObject} :
    Respects (Alike cmp) (functionCallee p fn) := by
  unfold functionCallee
  split
  · exact .pure
  · exact funcOf_respects

theorem functionAt?_respects {n : NodeId} : Respects (Alike cmp) (functionAt? n) := by
  refine .get_bind fun b b' h => ?_
  rw [h.pag.function?]
  exact Respects.pure.apply h

theorem callThrough_respects {enter enter' : Enter} (henter : enter.Respects cmp enter')
    {c : ModelCall} {binding : CallBinding} : TryRespects cmp.strict (Alike cmp)
      (callThrough p enter c binding) (callThrough p enter' c binding) :=
  .seq (fun _ _ h => addCall_alike h) fun _ _ => .discard (connect_respects henter)

theorem watchArg_respects {c : ModelCall} {index : Nat} :
    Respects (Alike cmp) (watchArg p c index) := by
  unfold watchArg
  split
  · exact .bind valueNode_respects fun _ => .discard addSite_respects
  · exact .pure

theorem argNode?_respects {c : ModelCall} {index : Nat} :
    Respects (Alike cmp) (argNode? p c index) := by
  unfold argNode?
  split
  · exact .map valueNode_respects
  · exact .pure

theorem resultNode?_respects {c : ModelCall} : Respects (Alike cmp) (resultNode? p c) := by
  unfold resultNode?
  split
  · exact .map valueNode_respects
  · exact .pure

end Build

end PointsTo
