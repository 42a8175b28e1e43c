import PointsTo.Proofs.Confined.Builder
import PointsTo.Proofs.Repetition.States

/-!
# Requests are idempotent

What was asked for once is there, and is found when it is asked for again: nodes, edges, waiting
calls, methods, recorded calls, contexts. So every request is idempotent, as long as the nodes it is
about are there, and the context of the caller is. Connecting a call is so if entering the callee is
(`connect_idempotentAt`).
-/

namespace PointsTo

/-! ## Contexts -/

theorem findIdx?_interned {α : Type} [BEq α] [ReflBEq α] (table : Array α) (x : α) :
    (interned table x).findIdx? (· == x) = some (intern table x).1 := by
  unfold interned intern
  split
  · assumption
  · rename_i hnone
    rw [Array.findIdx?_push, hnone]
    simp

/-- What was interned once is found where it was. -/
theorem intern_again {α : Type} [BEq α] [ReflBEq α] {table table' : Array α} {x : α}
    (h : ∀ {i : Nat} {y}, (interned table x)[i]? = some y → table'[i]? = some y) :
    intern table' x = ((intern table x).1, table') := by
  have hfound : table'.findIdx? (· == x) = some (intern table x).1 :=
    findIdx?_mono (fun hy => ⟨_, h hy, rfl⟩) (findIdx?_interned table x)
  generalize (intern table x).1 = i at hfound ⊢
  unfold intern
  rw [hfound]

namespace ContextTable

variable {t t' : ContextTable} {caller : ContextId}

theorem extend_again {item : ContextItem} (hcaller : (t.context? caller).isSome = true)
    (h : (t.extend caller item).2.Extends t') :
    t'.extend caller item = ((t.extend caller item).1, t') := by
  obtain ⟨ctx, hctx⟩ := Option.isSome_iff_exists.1 hcaller
  have hctx' : t'.context? caller = some ctx :=
    h.context ((t.extend_extends caller item).context hctx)
  have hk : t'.k = t.k := h.k
  have hitems : intern t'.items item = ((intern t.items item).1, t'.items) := intern_again h.item
  have hcontexts : intern t'.contexts (t.extension caller item) =
      ((intern t.contexts (t.extension caller item)).1, t'.contexts) := intern_again h.context
  unfold extension at hcontexts
  rw [hctx, ← hk] at hcontexts
  unfold extend
  rw [hctx, hctx', ← hk]
  dsimp only
  rw [hitems]
  dsimp only
  rw [hcontexts]

theorem select_again {site : Nat} {obj : Option Nat} {callee : Nat}
    (hcaller : (t.context? caller).isSome = true)
    (h : (t.select caller site obj callee).2.Extends t') :
    t'.select caller site obj callee = ((t.select caller site obj callee).1, t') := by
  have hsensitivity : t'.sensitivity = t.sensitivity :=
    h.sensitivity.trans (t.select_extends caller site obj callee).sensitivity
  unfold select at h ⊢
  rw [hsensitivity]
  split at h
  · exact extend_again hcaller h
  · exact extend_again hcaller h
  · rfl
  · exact extend_again hcaller h

end ContextTable

/-! ## Nodes, edges and calls -/

namespace Pag

variable {g : Pag} {cid : ContextId} {e : Entity} {n : NodeId}

theorem lt_of_find? (h : g.find? cid e = some n) : n < g.nodes.size := by
  obtain ⟨⟨x, hx, -⟩, -⟩ := find?_eq_some_iff.1 h
  exact node?_lt hx

/-- A node that is there is not made again. -/
theorem addNode_of_find? (h : g.find? cid e = some n) (kind : NodeKind) :
    g.addNode cid e kind = ((n, false), g) := by
  unfold addNode
  rw [h]

end Pag

namespace Builder.GrowsQuietly

variable {b b' : Builder}

theorem hasContext (h : b.GrowsQuietly b') {cid : ContextId} (hc : b.HasContext cid) :
    b'.HasContext cid := by
  obtain ⟨ctx, hctx⟩ := Option.isSome_iff_exists.1 hc
  exact Option.isSome_of_eq_some (h.contexts.context hctx)

theorem isNode? (h : b.GrowsQuietly b') {n : Option NodeId} (hn : Build.IsNode? b n) :
    Build.IsNode? b' n :=
  fun m hm => h.pag.lt (hn m hm)

end Builder.GrowsQuietly

open Builder (GrowsQuietly KeepsRequests)

variable {p : Program} {b : Builder}

namespace Build

variable {w : Queueing}

theorem addEdge_idempotentAt {kind : EdgeKind} {src dst : NodeId} (hsrc : src < b.pag.nodes.size)
    (hdst : dst < b.pag.nodes.size) :
    IdempotentAt (discard (addEdge kind src dst)) b fun _ _ => True := by
  have hkept : Spec (KeepsRequests {}) (addEdge kind src dst) b _ := addEdge_linkSpec
  refine .of_keepsRequests (.discard hkept.any) fun c hc => ?_
  have hedge : ⟨kind, src, dst⟩ ∈ c.pag.edges := hc.pag.edge (hkept.2 hsrc hdst)
  have hold : (c.pag.addEdge kind src dst).1 = false :=
    Bool.eq_false_iff.2 fun hnew => Pag.not_mem_of_addEdge hnew hedge
  show ((), ((addEdge kind src dst).run c).2) = ((), c)
  rw [c.run_addEdge kind src dst, hold, Pag.addEdge_of_not_new hold]
  rfl

theorem addSite_idempotentAt {n : NodeId} (hn : n < b.pag.nodes.size) {site : SiteRef} :
    IdempotentAt (discard (addSite n site)) b fun _ _ => True := by
  have hkept : Spec (KeepsRequests {}) (addSite n site) b _ := addSite_linkSpec
  refine .of_keepsRequests (.discard hkept) fun c hc => ?_
  have hwaits : site ∈ c.pag.sitesOf n := by
    refine hc.pag.site ?_
    show site ∈ ((addSite n site).run b).2.pag.sitesOf n
    rw [Builder.run_addSite]
    exact b.pag.mem_sitesOf_of_addSite n site hn
  have hold : (c.pag.addSite n site).1 = false :=
    Bool.eq_false_iff.2 fun hnew => Pag.not_mem_of_addSite hnew hwaits
  show ((), ((addSite n site).run c).2) = ((), c)
  rw [Builder.run_addSite, hold, Pag.addSite_of_not_new hold]
  rfl

theorem funcOf_idempotentAt {m : MethodSig} {missing : FuncKind} :
    IdempotentAt (funcOf p m missing) b fun _ _ => True := by
  refine .of_keepsRequests (p := p) funcOf_linkSpec.any fun c hc => ?_
  have hfound : c.graph.funcId? m = some (b.graph.nodeFor p m missing).1 :=
    hc.graph.funcId? (b.graph.funcId?_nodeFor p m missing)
  show ((c.graph.nodeFor p m missing).1, { c with graph := (c.graph.nodeFor p m missing).2 }) = _
  rw [CallGraph.nodeFor_of_funcId? hfound p missing]
  rfl

/-- The second time the call is no news, so nothing may depend on whether it is. -/
theorem addCall_idempotentAt {src dst : FuncId} {stmt : StmtId} {kind : CallKind} :
    IdempotentAt (discard (addCall src dst stmt kind)) b fun _ _ => True := by
  refine .of_keepsRequests (p := {}) (.discard addCall_linkSpec) fun c hc => ?_
  have hold :=
    (hc.factsAndCalls.hasCallOnce (b.graph.hasCallOnce_addCall src dst stmt kind)).addCall_eq
  show ((), { c with graph := (c.graph.addCall src dst stmt kind).2 }) = ((), c)
  rw [hold]

theorem addUnhandled_idempotentAt {m : MethodSig} :
    IdempotentAt (addUnhandled m) b fun _ _ => True := by
  refine .of_keepsRequests (p := {}) addUnhandled_keepsRequests.spec fun c hc => ?_
  have hlisted : m ∈ ((addUnhandled m).run b).2.unhandled := by
    show m ∈ (if _ then _ else _ : Builder).unhandled
    split
    · rename_i hold
      simpa using hold
    · simp
  show ((), if c.unhandled.contains m then c else _) = ((), c)
  rw [if_pos (by simpa using hc.factsAndCalls.unhandled hlisted)]

theorem methodOf_idempotentAt {f : FuncId} : TryIdempotentAt w (methodOf f) b fun _ _ => True := by
  refine .of_same fun {m b'} hrun => ?_
  obtain ⟨-, rfl, hm⟩ := (methodOf_linkSpec (p := {})).trySpec.of_run hrun
  refine ⟨refl_of GrowsQuietly b', rfl, trivial, fun c hc => ?_⟩
  unfold methodOf
  rw [run_get_bind, hc.graph.method hm]
  rfl

theorem isSingleton_idempotentAt {f : FuncId} :
    TryIdempotentAt w (isSingleton p f) b fun _ _ => True := by
  refine .of_same fun {single b'} hrun => ?_
  obtain ⟨hkept, hsingle, -⟩ := (isSingleton_linkSpec (p := p)).trySpec.of_run hrun
  exact ⟨hkept.growsQuietly, hkept.samePending, trivial, fun _ hc =>
    run_isSingleton_of_known (hc.single hsingle)⟩

theorem selectContext_idempotentAt {caller : ContextId} (hcaller : b.HasContext caller)
    {site : CallSiteId} {obj : Option NodeId} {callee : FuncId} :
    IdempotentAt (selectContext caller site obj callee) b fun _ _ => True := by
  refine ⟨(selectContext_keepsLinked (p := {}) b).growsQuietly, rfl, trivial, fun c hc => ?_⟩
  have hold := ContextTable.select_again hcaller hc.contexts
  show ((c.contexts.select caller site obj callee).1,
    { c with contexts := (c.contexts.select caller site obj callee).2 }) = _
  rw [hold]
  rfl

/-! ## Nodes -/

theorem run_nodeWithKind_of_find? {cid : ContextId} {e : Entity} {n : NodeId}
    (h : b.pag.find? cid e = some n) (kind : NodeKind) :
    (nodeWithKind p cid e kind).run b = (n, b) := by
  unfold nodeWithKind
  rw [StateT.run_bind, StateT.run_get, pure_bind]
  dsimp only
  rw [Pag.addNode_of_find? h]
  rfl

theorem nodeWithKind_idempotentAt {cid : ContextId} {e : Entity} {kind : NodeKind} :
    IdempotentAt (nodeWithKind p cid e kind) b fun n b' => n < b'.pag.nodes.size := by
  have hkept : Spec (KeepsRequests p) (nodeWithKind p cid e kind) b _ := nodeWithKind_linkSpec
  exact .of_keepsRequests ⟨hkept.1, Pag.lt_of_find? hkept.2⟩ fun c hc =>
    run_nodeWithKind_of_find? (hc.pag.find? hkept.2) kind

theorem run_nodeOf_of_nodeIn? {cid : ContextId} {e : Entity} {n : NodeId}
    (h : nodeIn? b.pag cid e = some n) : (nodeOf p cid e).run b = (n, b) := by
  have hobtain : ∀ baseNode, (obtain p baseNode cid e).run b = (n, b) := by
    intro baseNode
    unfold nodeIn? at h
    unfold obtain
    rw [StateT.run_bind, StateT.run_get, pure_bind]
    dsimp only
    rw [h]
    rfl
  unfold nodeOf
  cases depth e with
  | zero => exact hobtain _
  | succ depth => exact hobtain _

theorem nodeOf_idempotentAt {cid : ContextId} {e : Entity} (he : e.IsPlain) :
    IdempotentAt (nodeOf p cid e) b fun n b' => n < b'.pag.nodes.size := by
  have hkept : Spec (KeepsRequests p) (nodeOf p cid e) b _ := nodeOf_linkSpec
  refine .of_keepsRequests ⟨hkept.1, Pag.lt_of_find? hkept.2⟩ fun c hc => run_nodeOf_of_nodeIn? ?_
  unfold nodeIn?
  rw [contextOf_eq he c.pag b.pag cid]
  exact hc.pag.find? hkept.2

theorem valueNode_idempotentAt {cid : ContextId} {v : ValueId} :
    IdempotentAt (valueNode p cid v) b fun n b' => n < b'.pag.nodes.size :=
  nodeOf_idempotentAt (entityOf_isPlain p v)

theorem run_fieldNode_of_find? {obj n : NodeId} {key : FieldKey}
    (h : b.pag.find? (b.pag.fieldContext obj) (.objField obj key) = some n)
    (cloneOf : Option NodeId) : (fieldNode obj key cloneOf).run b = (n, b) := by
  have hadd := Pag.addNode_of_find? h (.reference (some obj) key cloneOf)
  show ((b.pag.addNode (b.pag.fieldContext obj) (.objField obj key) _).1.1,
    { b with pag := (b.pag.addNode (b.pag.fieldContext obj) (.objField obj key) _).2 }) = _
  rw [hadd]

theorem fieldNode_idempotentAt {obj : NodeId} (hobj : obj < b.pag.nodes.size) {key : FieldKey}
    {cloneOf : Option NodeId} :
    IdempotentAt (fieldNode obj key cloneOf) b fun n b' => n < b'.pag.nodes.size := by
  have hfound := b.pag.find?_addNode (b.pag.fieldContext obj) (.objField obj key)
    (.reference (some obj) key cloneOf)
  have hkept :
    Spec (KeepsRequests {}) (fieldNode obj key cloneOf) b fun n b' => n < b'.pag.nodes.size :=
    ⟨fieldNode_linkSpec.1, Pag.lt_of_find? hfound⟩
  refine .of_keepsRequests hkept fun c hc => run_fieldNode_of_find? ?_ cloneOf
  rw [(hkept.1.pag.trans hc.pag).fieldContext hobj]
  exact hc.pag.find? hfound

theorem argNodes_idempotentAt {cid : ContextId} (args : List ValueId) (index : Nat) :
    IdempotentAt (argNodes p cid args index) b fun ns b' => ∀ x ∈ ns, x.1 < b'.pag.nodes.size := by
  induction args generalizing b index with
  | nil => exact .pure fun _ hx => absurd hx List.not_mem_nil
  | cons a args ih =>
    unfold argNodes
    split
    · refine .bind valueNode_idempotentAt fun n b₁ _ hn => ?_
      refine .bind (ih (index + 1)) fun ns b₂ h₂ hns => .pure fun x hx => ?_
      rcases List.mem_cons.1 hx with rfl | hx
      · exact h₂.pag.lt hn
      · exact hns x hx
    · exact ih (index + 1)

end Build

/-! ## Calls -/

open Build

/-- What the call passes are nodes that are there, and so is the context of the caller. -/
structure CallBinding.Placed (b : Builder) (c : CallBinding) : Prop where
  caller : b.HasContext c.callerCid
  this : IsNode? b c.thisSrc
  args : ∀ arg ∈ c.args, arg.1 < b.pag.nodes.size
  spread : IsNode? b c.spread
  result : IsNode? b c.result

theorem CallBinding.Placed.mono {c : CallBinding} {b' : Builder} (h : c.Placed b)
    (hb : b.GrowsQuietly b') : c.Placed b' where
  caller := hb.hasContext h.caller
  this := hb.isNode? h.this
  args arg harg := hb.pag.lt (h.args arg harg)
  spread := hb.isNode? h.spread
  result := hb.isNode? h.result

/-- Wherever a method is entered, it can be entered again. -/
def Enter.IdempotentAt (w : Queueing) (enter : Enter) : Prop :=
  ∀ f cid b, TryIdempotentAt w (enter f cid) b fun _ _ => True

namespace Build

variable {w : Queueing} {c : CallBinding} {m : MethodDecl} {cid : ContextId}

theorem calleeContext_idempotentAt (hc : c.Placed b) :
    TryIdempotentAt w (calleeContext p c) b fun _ _ => True := by
  unfold calleeContext
  refine .seq isSingleton_idempotentAt fun single b₁ h₁ => ?_
  cases single with
  | true => exact .pure trivial
  | false => exact .lift (selectContext_idempotentAt (hc.mono h₁).caller)

theorem connectOuterThis_idempotentAt {dst : NodeId} (hdst : dst < b.pag.nodes.size) :
    IdempotentAt (do
      if m.sig.isArrow then
        if let some outerThis := m.outer.bind p.thisLocal? then
          let src ← valueNode p (c.functionCid.getD c.callerCid) outerThis
          discard (addEdge .this src dst)) b fun _ _ => True := by
  split
  · split
    · exact .bind valueNode_idempotentAt fun src b₁ h₁ hsrc =>
        addEdge_idempotentAt hsrc (h₁.pag.lt hdst)
    · exact .pure trivial
  · exact .pure trivial

theorem connectThis_idempotentAt (hc : c.Placed b) :
    IdempotentAt (connectThis p c m cid) b fun _ _ => True := by
  unfold connectThis
  split
  · refine .bind valueNode_idempotentAt fun dst b₁ h₁ hdst => ?_
    dsimp only
    split
    · rename_i src hsrc
      have hlt : src < b₁.pag.nodes.size := (hc.mono h₁).this src hsrc
      exact .seq (addEdge_idempotentAt hlt hdst) fun _ b₂ h₂ =>
        connectOuterThis_idempotentAt (h₂.pag.lt hdst)
    · exact connectOuterThis_idempotentAt hdst
  · exact .pure trivial

/-- What comes back from the callee, and the receiver. -/
theorem connectResult_idempotentAt (hc : c.Placed b) : IdempotentAt (do
      if let some dst := c.result then
        (p.returnValues m.sig).forM fun v => do
          discard (addEdge .copy (← valueNode p cid v) dst)
      connectThis p c m cid) b fun _ _ => True := by
  dsimp only
  split
  · rename_i dst hdst
    refine .seq (.forM fun v _ b₁ h₁ => ?_) fun _ b₁ h₁ => connectThis_idempotentAt (hc.mono h₁)
    refine .bind valueNode_idempotentAt fun src b₂ h₂ hsrc => addEdge_idempotentAt hsrc ?_
    exact ((hc.mono h₁).mono h₂).result dst hdst
  · exact connectThis_idempotentAt hc

theorem connectFlow_idempotentAt (hc : c.Placed b) :
    IdempotentAt (connectFlow p c m cid) b fun _ _ => True := by
  unfold connectFlow
  refine .seq (.forM fun arg harg b₁ h₁ => ?_) fun _ b₁ h₁ => ?_
  · split
    · refine .bind valueNode_idempotentAt fun param b₂ h₂ hparam => addEdge_idempotentAt ?_ hparam
      exact ((hc.mono h₁).mono h₂).args arg harg
    · exact .pure trivial
  · have hc₁ := hc.mono h₁
    dsimp only
    split
    · rename_i src hsrc
      refine .seq (.forM fun param _ b₂ h₂ => ?_) fun _ b₂ h₂ =>
        connectResult_idempotentAt (hc₁.mono h₂)
      refine .bind valueNode_idempotentAt fun dst b₃ h₃ hdst => addEdge_idempotentAt ?_ hdst
      exact ((hc₁.mono h₂).mono h₃).spread src hsrc
    · exact connectResult_idempotentAt hc₁

/-- A call is connected again if the callee can be entered again. -/
theorem connect_idempotentAt {enter : Enter}
    (henter : enter.IdempotentAt w) (hc : c.Placed b) :
    TryIdempotentAt w (connect p enter c) b fun _ _ => True := by
  unfold connect
  refine .seq methodOf_idempotentAt fun sig b₁ h₁ => ?_
  cases (p.method? sig).filter MethodDecl.hasBody with
  | none => exact .pure trivial
  | some m =>
    have hc₁ := hc.mono h₁
    refine .seq (calleeContext_idempotentAt hc₁) fun cid b₂ h₂ =>
      .seq (henter _ _ _) fun _ b₃ h₃ => ?_
    refine .seq (.lift (connectFlow_idempotentAt ((hc₁.mono h₂).mono h₃))) fun _ _ _ => ?_
    exact .pure trivial

end Build

end PointsTo
