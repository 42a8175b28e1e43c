import PointsTo.Proofs.Actions.Layout
import PointsTo.Proofs.Library.Models

/-!
# Calls of arrow functions

An arrow function that is called is given the receiver of the method that it is written in, as it is
in the context that the call names. If the call names none, it is the context of the caller. So for
each way to call a function object there is one lemma here that says which context that is: where
the function object was made for `call` and `apply`, and the caller's for whatever the library calls
itself.
-/

namespace PointsTo

open Builder (Actions CallContext)
open Build

/-- An arrow function with a body that reads its receiver, in a method that has its own receiver in
one local. -/
structure Program.Arrow (p : Program) where
  method : MethodSig
  /-- The receiver that the arrow function reads. -/
  receiver : ValueId
  /-- The local with the receiver of the method that it is written in. -/
  outer : ValueId
  isArrow : method.isArrow = true
  reads : p.thisRef? method = some receiver
  written : ∃ decl, p.method? method = some decl ∧ decl.hasBody = true ∧
    decl.outer.bind p.thisLocal? = some outer

variable {p : Program} {b b' b₁ b₂ : Builder} {f : p.Arrow} {caller created : ContextId}
  {site : CallSiteId} {obj : NodeId} {fn : FunctionObject} {c : ModelCall}

/-! ## Function objects -/

/-- The node is the function object, which names the node of its method if it names one. -/
structure Builder.HasFunctionObject (b : Builder) (obj : NodeId) (fn : FunctionObject) : Prop where
  function? : b.pag.function? obj = some fn
  func : ∀ {callee}, fn.func = some callee → b.graph.methodOf? callee = some fn.method

theorem Builder.HasFunctionObject.mono (h : b.HasFunctionObject obj fn) (hb : b.Extends b') :
    b'.HasFunctionObject obj fn where
  function? := hb.pag.function? h.function?
  func hfunc := hb.graph.method (h.func hfunc)

theorem Builder.Sound.holds (hb : b.Sound p) (h : b.pag.function? obj = some fn) :
    b.HasFunctionObject obj fn where
  function? := h
  func hfunc := by
    obtain ⟨x, hx, hfn⟩ := Option.bind_eq_some_iff.1 h
    exact (hb.fits hx).func (NodeKind.eq_function_of_function? hfn) hfunc

theorem Build.functionAt?_holds (h : b.HasFunctionObject obj fn) :
    Spec (Actions p) (functionAt? obj) b fun answer b' => answer = some fn ∧ b' = b :=
  .get_bind (.pure ⟨h.function?, rfl⟩)

theorem Build.functionCallee_holds (h : b.HasFunctionObject obj fn) :
    Spec (Actions p) (functionCallee p fn) b fun callee b' =>
      b'.graph.methodOf? callee = some fn.method := by
  unfold functionCallee
  split
  · rename_i callee hfunc
    exact .pure (h.func hfunc)
  · exact funcOf_names

/-! ## Receivers of arrow functions -/

namespace Program.Arrow

/-- In the context `cid` the arrow function has the receiver that its method has in `src`. -/
def HasOuterReceiver (f : p.Arrow) (g : Pag) (src cid : ContextId) : Prop :=
  ∃ s d, nodeIn? g src (entityOf p f.outer) = some s ∧
    nodeIn? g cid (entityOf p f.receiver) = some d ∧ ⟨.this, s, d⟩ ∈ g.edges

theorem HasOuterReceiver.mono {g g' : Pag} {src cid : ContextId} (h : f.HasOuterReceiver g src cid)
    (hg : g.Extends g') : f.HasOuterReceiver g' src cid := by
  obtain ⟨s, d, hs, hd, he⟩ := h
  exact ⟨s, d, nodeIn?_mono (entityOf_isPlain p _) hg hs, nodeIn?_mono (entityOf_isPlain p _) hg hd,
    hg.edge he⟩

/-- From `b` to `b'` the arrow function was called on the object. It is asked for in the context of
the call, and sees the receiver of `src` there. -/
def Awaited (f : p.Arrow) (b b' : Builder) (caller : ContextId) (site : CallSiteId) (obj : NodeId)
    (src : ContextId) : Prop :=
  ∃ callee cid, b'.graph.methodOf? callee = some f.method ∧ b'.Requested callee cid ∧
    CallContext b b' caller site (some obj) callee cid ∧ f.HasOuterReceiver b'.pag src cid

/-- The same, and the arrow function is laid out in the context of the call. -/
def Called (f : p.Arrow) (b b' : Builder) (caller : ContextId) (site : CallSiteId) (obj : NodeId)
    (src : ContextId) : Prop :=
  ∃ callee cid, b'.graph.methodOf? callee = some f.method ∧ (cid, callee) ∈ b'.built ∧
    CallContext b b' caller site (some obj) callee cid ∧ f.HasOuterReceiver b'.pag src cid

variable {src : ContextId}

theorem Awaited.mono (h : f.Awaited b₁ b₂ caller site obj src)
    (hfrom : b.contexts.Extends b₁.contexts) (hto : b₂.Extends b') :
    f.Awaited b b' caller site obj src := by
  obtain ⟨callee, cid, hm, hasked, hcontext, hsees⟩ := h
  exact ⟨callee, cid, hto.graph.method hm, hto.requested hasked, hcontext.mono hfrom hto,
    hsees.mono hto.pag⟩

theorem Called.mono (h : f.Called b₁ b₂ caller site obj src)
    (hfrom : b.contexts.Extends b₁.contexts) (hto : b₂.Extends b') :
    f.Called b b' caller site obj src := by
  obtain ⟨callee, cid, hm, hbuilt, hcontext, hsees⟩ := h
  exact ⟨callee, cid, hto.graph.method hm, hto.built hbuilt, hcontext.mono hfrom hto,
    hsees.mono hto.pag⟩

/-- What waits is laid out when nothing waits any more. -/
theorem Awaited.called (h : f.Awaited b b' caller site obj src) (hempty : b'.pending = []) :
    f.Called b b' caller site obj src := by
  obtain ⟨callee, cid, hm, hasked, hrest⟩ := h
  exact ⟨callee, cid, hm, built_of_requested hasked hempty, hrest⟩

/-- The node is a function object of the arrow function, made in the context `created`. -/
structure IsAt (f : p.Arrow) (g : Pag) (obj : NodeId) (fn : FunctionObject)
    (created : ContextId) : Prop where
  node : ∃ x, g.node? obj = some x ∧ x.kind = .function fn ∧ x.cid = created
  method : fn.method = f.method

theorem IsAt.function? {g : Pag} (h : f.IsAt g obj fn created) : g.function? obj = some fn := by
  obtain ⟨x, hx, hkind, -⟩ := h.node
  simp [Pag.function?, hx, hkind, NodeKind.function?]

theorem IsAt.mono {g g' : Pag} (h : f.IsAt g obj fn created) (hg : g.Extends g') :
    f.IsAt g' obj fn created := by
  obtain ⟨x, hx, hkind, hcid⟩ := h.node
  obtain ⟨x', hx', hgrows⟩ := hg.node hx
  exact ⟨⟨x', hx', hgrows.kind.trans hkind, hgrows.cid.trans hcid⟩, h.method⟩

/-- A node that was there before was a function object of the arrow function before. -/
theorem IsAt.of_extends {g g' : Pag} (h : f.IsAt g' obj fn created) (hg : g.Extends g')
    (hobj : obj < g.nodes.size) : f.IsAt g obj fn created := by
  obtain ⟨x, hx⟩ := Pag.exists_node? hobj
  obtain ⟨x', hx', hgrows⟩ := hg.node hx
  obtain ⟨y, hy, hkind, hcid⟩ := h.node
  cases hx'.symm.trans hy
  exact ⟨⟨x, hx, hgrows.kind.symm.trans hkind, hgrows.cid.symm.trans hcid⟩, h.method⟩

/-- The same, and the function object names the node of its method. -/
structure Held (f : p.Arrow) (b : Builder) (obj : NodeId) (fn : FunctionObject)
    (created : ContextId) : Prop extends f.IsAt b.pag obj fn created where
  func : ∀ {callee}, fn.func = some callee → b.graph.methodOf? callee = some f.method

theorem Held.mono (h : f.Held b obj fn created) (hb : b.Extends b') : f.Held b' obj fn created :=
  ⟨h.toIsAt.mono hb.pag, fun hfunc => hb.graph.method (h.func hfunc)⟩

theorem IsAt.held (h : f.IsAt b.pag obj fn created) (hb : b.Sound p) :
    f.Held b obj fn created :=
  ⟨h, fun hfunc => h.method ▸ (hb.holds h.function?).func hfunc⟩

theorem Held.holds (h : f.Held b obj fn created) : b.HasFunctionObject obj fn :=
  ⟨h.function?, fun hfunc => h.method ▸ h.func hfunc⟩

end Program.Arrow

open Program.Arrow

namespace Build

/-! ## Connecting -/

theorem connectOuterThis_arrow (f : p.Arrow) {binding : CallBinding} {m : MethodDecl}
    (hsig : m.sig = f.method) (houter : m.outer.bind p.thisLocal? = some f.outer)
    {cid : ContextId} {dst : NodeId}
    (hdst : nodeIn? b.pag cid (entityOf p f.receiver) = some dst) : Spec (Actions p) (do
      if m.sig.isArrow then
        if let some outerThis := m.outer.bind p.thisLocal? then
          let src ← valueNode p (binding.functionCid.getD binding.callerCid) outerThis
          discard (addEdge .this src dst)) b fun _ b' =>
      f.HasOuterReceiver b'.pag (binding.functionCid.getD binding.callerCid) cid := by
  obtain ⟨m', -, hlocal⟩ := Option.bind_eq_some_iff.1 houter
  rw [if_pos (by rw [hsig]; exact f.isArrow), houter]
  refine .bind (valueNode_found (Program.not_onlyAssigned_of_thisLocal? hlocal)) ?_
  intro src b₁ h₁ hsrc
  refine .discard ⟨addEdge_actions b₁, ?_⟩
  replace hdst := nodeIn?_mono (entityOf_isPlain p _) h₁.extends.pag hdst
  rw [Builder.run_addEdge]
  have hextends := b₁.pag.addEdge_extends .this src dst
  exact ⟨src, dst, nodeIn?_mono (entityOf_isPlain p _) hextends hsrc,
    nodeIn?_mono (entityOf_isPlain p _) hextends hdst,
    Pag.mem_edges_of_addEdge (lt_of_nodeIn? hsrc) (lt_of_nodeIn? hdst)⟩

theorem connectThis_arrow (f : p.Arrow) {binding : CallBinding} {m : MethodDecl}
    (hsig : m.sig = f.method) (houter : m.outer.bind p.thisLocal? = some f.outer)
    {cid : ContextId} : Spec (Actions p) (connectThis p binding m cid) b fun _ b' =>
      f.HasOuterReceiver b'.pag (binding.functionCid.getD binding.callerCid) cid := by
  unfold connectThis
  rw [hsig, f.reads]
  refine .bind (valueNode_found (Program.not_onlyAssigned_of_thisRef? f.reads)) ?_
  intro dst b₁ _ hdst
  rw [← hsig]
  dsimp only
  split
  · refine .seq (.discard addEdge_actions.spec) fun _ b₂ h₂ => ?_
    exact connectOuterThis_arrow f hsig houter
      (nodeIn?_mono (entityOf_isPlain p _) h₂.extends.pag hdst)
  · exact connectOuterThis_arrow f hsig houter hdst

theorem connectResult_arrow (f : p.Arrow) {binding : CallBinding} {m : MethodDecl}
    (hsig : m.sig = f.method) (houter : m.outer.bind p.thisLocal? = some f.outer)
    {cid : ContextId} : Spec (Actions p) (do
      if let some dst := binding.result then
        (p.returnValues m.sig).forM fun v => do
          discard (addEdge .copy (← valueNode p cid v) dst)
      connectThis p binding m cid) b fun _ b' =>
        f.HasOuterReceiver b'.pag (binding.functionCid.getD binding.callerCid) cid := by
  split
  · exact .seq connectReturns_actions.spec fun _ _ _ => connectThis_arrow f hsig houter
  · exact connectThis_arrow f hsig houter

/-- Parameters and results come first. The receiver is the last that is connected. -/
theorem connectFlow_arrow (f : p.Arrow) {binding : CallBinding} {m : MethodDecl}
    (hsig : m.sig = f.method) (houter : m.outer.bind p.thisLocal? = some f.outer)
    {cid : ContextId} : Spec (Actions p) (connectFlow p binding m cid) b fun _ b' =>
      f.HasOuterReceiver b'.pag (binding.functionCid.getD binding.callerCid) cid := by
  unfold connectFlow
  refine .seq connectArgs_actions.spec fun _ b₁ _ => ?_
  dsimp only
  split
  · exact .seq connectSpread_actions.spec fun _ _ _ => connectResult_arrow f hsig houter
  · exact connectResult_arrow f hsig houter

/-- `K` is what is known of the context of a callee that has been entered, and `Q` of the edges that
are drawn then. -/
theorem connect_enters {enter : Enter} {binding : CallBinding} {decl : MethodDecl}
    {K Q : ContextId → Builder → Prop}
    (stable : ∀ {cid b₁ b₂}, Builder.Extends b₁ b₂ → K cid b₁ → K cid b₂)
    (henter : TrySpec (Actions p) (enterCallee p enter binding) b K)
    (hm : b.graph.methodOf? binding.callee = some decl.sig)
    (hdecl : p.method? decl.sig = some decl) (hbody : decl.hasBody = true)
    (hflow : ∀ {cid b₁}, Actions p b b₁ →
      Spec (Actions p) (connectFlow p binding decl cid) b₁ fun _ => Q cid) :
    TrySpec (Actions p) (connect p enter binding) b fun _ b' => ∃ cid, K cid b' ∧ Q cid b' := by
  rw [connect_eq]
  refine .bind methodOf_actions ?_
  rintro sig _ - ⟨rfl, hsig⟩
  cases hm.symm.trans hsig
  rw [hdecl, Option.filter_some, if_pos hbody]
  refine .bind henter fun cid b₁ h₁ hcid => ?_
  refine .bind (.lift (hflow h₁)) fun _ b₂ h₂ hdrawn => .pure ?_
  exact ⟨cid, stable h₂.extends hcid, hdrawn⟩

theorem connect_arrow (f : p.Arrow) {enter : Enter} {binding : CallBinding}
    {K : ContextId → Builder → Prop}
    (stable : ∀ {cid b₁ b₂}, Builder.Extends b₁ b₂ → K cid b₁ → K cid b₂)
    (henter : TrySpec (Actions p) (enterCallee p enter binding) b K)
    (hm : b.graph.methodOf? binding.callee = some f.method) :
    TrySpec (Actions p) (connect p enter binding) b fun _ b' => ∃ cid,
      b'.graph.methodOf? binding.callee = some f.method ∧ K cid b' ∧
        f.HasOuterReceiver b'.pag (binding.functionCid.getD binding.callerCid) cid := by
  obtain ⟨decl, hdecl, hbody, houter⟩ := f.written
  have hsig : decl.sig = f.method := by simpa using Array.find?_some hdecl
  rw [← hsig] at hm hdecl
  have hconnect := connect_enters (K := K) stable henter hm hdecl hbody fun _ =>
    connectFlow_arrow f hsig houter
  refine hconnect.mono fun _ b₁ h₁ ⟨cid, hcid, hsees⟩ => ?_
  exact ⟨cid, hsig ▸ h₁.extends.graph.method hm, hcid, hsees⟩

/-! ## Calls of function objects -/

theorem functionCallee_arrow (h : f.Held b obj fn created) :
    Spec (Actions p) (functionCallee p fn) b fun callee b' =>
      b'.graph.methodOf? callee = some f.method :=
  h.method ▸ functionCallee_holds h.holds

/-- The call is recorded and connected. What it enters waits. -/
theorem callThrough_arrow {binding : CallBinding} (hobj : binding.contextObj = some obj)
    (hm : b.graph.methodOf? binding.callee = some f.method) :
    TrySpec (Actions p) (callThrough p enqueue c binding) b fun _ b' =>
      f.Awaited b b' binding.callerCid binding.site obj
        (binding.functionCid.getD binding.callerCid) := by
  unfold callThrough
  refine .seq (.lift addCall_actions.spec) fun _ b₁ h₁ => ?_
  have hconnect := connect_arrow f
    (K := fun cid b' => b'.Requested binding.callee cid ∧ CallContext b₁ b' binding.callerCid
      binding.site binding.contextObj binding.callee cid)
    (fun h hk => ⟨h.requested hk.1, hk.2.mono .rfl h⟩) enterCallee_enqueue
    (h₁.extends.graph.method hm)
  refine .discard (hconnect.mono fun _ b₂ h₂ ⟨cid, hm, ⟨hasked, hcontext⟩, hsees⟩ => ?_)
  exact ⟨binding.callee, cid, hm, hasked, hobj ▸ hcontext.mono h₁.extends.contexts .rfl, hsees⟩

/-- A call that is connected at once. -/
theorem connect_called {s : Setting} (f : s.program.Arrow) (hs : s.ByActions)
    {binding : CallBinding} (hobj : binding.contextObj = some obj)
    (hm : b.graph.methodOf? binding.callee = some f.method) :
    TrySpec (Actions s.program) (connect s.program (enterNow s) binding) b fun _ b' =>
      f.Called b b' binding.callerCid binding.site obj
        (binding.functionCid.getD binding.callerCid) := by
  have hconnect := connect_arrow f
    (K := fun cid b' => (cid, binding.callee) ∈ b'.built ∧ CallContext b b' binding.callerCid
      binding.site binding.contextObj binding.callee cid)
    (fun h hk => ⟨h.built hk.1, hk.2.mono .rfl h⟩) (enterCallee_enterNow hs) hm
  refine hconnect.mono fun _ b₁ _ ⟨cid, hm, ⟨hbuilt, hcontext⟩, hsees⟩ => ?_
  exact ⟨binding.callee, cid, hm, hbuilt, hobj ▸ hcontext, hsees⟩

end Build

/-! ## What the models call -/

namespace Library

theorem Function.invoke_arrow (hc : c.OfProgram p) (h : f.Held b obj fn created) {isApply : Bool}
    {cid : ContextId} : TrySpec (Actions p) (invoke p enqueue c obj fn cid isApply) b fun _ b' =>
      f.Awaited b b' c.callerCid c.site obj cid := by
  -- The two methods differ in what they pass only.
  have finish : ∀ callee thisSrc spread rest b₁, Actions p b b₁ →
      b₁.graph.methodOf? callee = some f.method → TrySpec (Actions p) (do
        let result ← resultNode? p c
        callThrough p enqueue c { c.bindingOf callee obj fn with
          thisSrc, args := fn.boundArgs ++ rest, spread, result, functionCid := some cid }) b₁
        fun _ b' => f.Awaited b b' c.callerCid c.site obj cid := by
    intro callee thisSrc spread rest b₁ h₁ hm
    refine .seq (.lift (resultNode?_actions hc).spec) fun result b₂ h₂ => ?_
    refine (callThrough_arrow rfl (h₂.extends.graph.method hm)).mono fun _ b₃ _ hcalled => ?_
    exact hcalled.mono (h₁.extends.trans h₂.extends).contexts .rfl
  unfold Function.invoke
  refine .bind (.lift (functionCallee_arrow h)) fun callee b₁ h₁ hm => ?_
  refine .seq (.lift receiver_actions.spec) fun thisSrc b₂ h₂ => ?_
  replace hm := h₂.extends.graph.method hm
  replace h₂ := trans_of (Actions p) h₁ h₂
  cases isApply with
  | true =>
    refine .seq (.lift spreadNode?_actions.spec) fun spread b₃ h₃ => ?_
    exact finish callee thisSrc spread [] b₃ (trans_of (Actions p) h₂ h₃)
      (h₃.extends.graph.method hm)
  | false =>
    refine .seq (.pure trivial) fun spread b₃ h₃ => ?_
    refine .seq (.lift (argNodes_actions _ _).spec) fun rest b₄ h₄ => ?_
    replace h₄ := trans_of (Actions p) h₃ h₄
    exact finish callee thisSrc spread rest b₄ (trans_of (Actions p) h₂ h₄)
      (h₄.extends.graph.method hm)

/-- A call that does not say where the function object was made. -/
theorem callThrough_passed {binding : CallBinding} (hcid : binding.functionCid = none)
    (hcaller : binding.callerCid = c.callerCid) (hsite : binding.site = c.site)
    (hobj : binding.contextObj = some obj)
    (hm : b₁.graph.methodOf? binding.callee = some f.method) (h₁ : Actions p b b₁) :
    TrySpec (Actions p) (callThrough p enqueue c binding) b₁ fun _ b' =>
      f.Awaited b b' c.callerCid c.site obj c.callerCid := by
  refine (callThrough_arrow hobj hm).mono fun _ b₂ _ hcalled => ?_
  rw [hcid, Option.getD_none, hcaller, hsite] at hcalled
  exact hcalled.mono h₁.extends.contexts .rfl

theorem TaskPool.run_arrow (hc : c.OfProgram p) (h : f.Held b obj fn created) :
    TrySpec (Actions p) (run p enqueue c obj fn) b fun _ b' =>
      f.Awaited b b' c.callerCid c.site obj c.callerCid := by
  unfold TaskPool.run
  refine .bind (.lift (functionCallee_arrow h)) fun callee b₁ h₁ hm => ?_
  refine .seq (.lift (argNodes_actions _ _).spec) fun rest b₂ h₂ => ?_
  replace hm := h₂.extends.graph.method hm
  replace h₂ := trans_of (Actions p) h₁ h₂
  dsimp only
  split
  · refine .seq (.lift (resultNode?_actions hc).spec) fun result b₃ h₃ => ?_
    exact callThrough_passed rfl rfl rfl rfl (h₃.extends.graph.method hm)
      (trans_of (Actions p) h₂ h₃)
  · refine .seq (.pure trivial) fun result b₃ h₃ => ?_
    exact callThrough_passed rfl rfl rfl rfl (h₃.extends.graph.method hm)
      (trans_of (Actions p) h₂ h₃)

theorem Worker.run_arrow (h : f.Held b obj fn created) :
    TrySpec (Actions p) (run p enqueue c obj fn) b fun _ b' =>
      f.Awaited b b' c.callerCid c.site obj c.callerCid := by
  unfold Worker.run
  refine .bind (.lift (functionCallee_arrow h)) fun callee b₁ h₁ hm => ?_
  have hchannel : Guarantees (Actions p) (channel p) := nodeOf_actions_of_ne_value nofun
  refine .seq (.lift hchannel.spec) fun message b₂ h₂ => ?_
  exact callThrough_passed rfl rfl rfl rfl (h₂.extends.graph.method hm) (trans_of (Actions p) h₁ h₂)

theorem Sdk.run_arrow (h : f.Held b obj fn created) :
    TrySpec (Actions p) (run p enqueue c obj fn) b fun _ b' =>
      f.Awaited b b' c.callerCid c.site obj c.callerCid := by
  unfold Sdk.run
  refine .bind (.lift (functionCallee_arrow h)) fun callee b₁ h₁ hm => ?_
  exact callThrough_passed rfl rfl rfl rfl hm h₁

theorem Container.visit_arrow (h : f.Held b obj fn created) {elem : NodeId} :
    TrySpec (Actions p) (visit p enqueue c elem obj) b fun _ b' =>
      f.Awaited b b' c.callerCid c.site obj c.callerCid := by
  unfold Container.visit
  refine .bind (.lift (functionAt?_holds h.holds)) ?_
  rintro _ _ - ⟨rfl, rfl⟩
  refine .bind (.lift (functionCallee_arrow h)) fun callee b₁ h₁ hm => ?_
  exact callThrough_passed rfl rfl rfl rfl hm h₁

end Library

/-! ## What the models take -/

/-- If the model takes the call for an arrow function that was passed, it calls it. -/
def LibraryModel.CallsPassed (p : Program) (m : LibraryModel) (c : ModelCall) (index : Nat) :
    Prop :=
  ∀ {f : p.Arrow} {obj fn created b}, f.Held b obj fn created →
    TrySpec (Actions p) (m.onObject p enqueue c (.arg index) obj) b fun taken b' =>
      taken = true → f.Awaited b b' c.callerCid c.site obj c.callerCid

namespace Library

variable {index : Nat}

theorem Storage.callsPassed : Storage.model.CallsPassed p c index :=
  fun _ => .get_bind (.pure nofun)

theorem Function.callsPassed : Function.model.CallsPassed p c index :=
  fun _ => .get_bind (.pure nofun)

/-- Tasks are run from the first position only. -/
theorem TaskPool.callsPassed (hc : c.OfProgram p)
    (htask : isExecute c.invoke.method = true ∨ isTask c.invoke.method = true → index = 0) :
    TaskPool.model.CallsPassed p c index := by
  intro f obj fn created b h
  unfold TaskPool.model
  dsimp only
  split
  · exact .pure nofun
  · rename_i hno
    have hindex : index = 0 := htask (by grind)
    rw [hindex, if_neg (by simp)]
    refine .bind (.lift (functionAt?_holds h.holds)) ?_
    rintro _ _ - ⟨rfl, rfl⟩
    exact .bind (run_arrow hc h) fun _ b' _ hcalled => .pure fun _ => hcalled

theorem Worker.callsPassed : Worker.model.CallsPassed p c index := by
  intro f obj fn created b h
  unfold Worker.model
  dsimp only
  split
  · exact .pure nofun
  · refine .bind (.lift (functionAt?_holds h.holds)) ?_
    rintro _ _ - ⟨rfl, rfl⟩
    exact .bind (run_arrow h) fun _ b' _ hcalled => .pure fun _ => hcalled

theorem Sdk.callsPassed : Sdk.model.CallsPassed p c index := by
  intro f obj fn created b h
  unfold Sdk.model
  dsimp only
  split
  · exact .pure nofun
  · refine .bind (.lift (functionAt?_holds h.holds)) ?_
    rintro _ _ - ⟨rfl, rfl⟩
    exact .bind (run_arrow h) fun _ b' _ hcalled => .pure fun _ => hcalled

/-- One container is enough. -/
theorem Container.onCallback_arrow {base : ValueId} (hbase : ¬p.OnlyAssigned base)
    (h : f.Held b obj fn created) :
    TrySpec (Actions p) (onCallback p enqueue c base obj) b fun taken b' =>
      taken = true → f.Awaited b b' c.callerCid c.site obj c.callerCid := by
  unfold Container.onCallback
  refine .seq (.lift (valueNode_actions hbase).spec) fun receiver b₁ h₁ => .get_bind ?_
  dsimp only
  refine .bind (P := fun _ b' => ∀ o ∈ (b₁.pag.ptsOf receiver).filter b₁.pag.isContainer,
    f.Awaited b b' c.callerCid c.site obj c.callerCid) (.forM ?_ fun o _ b₂ h₂ => ?_) ?_
  · exact fun _ _ _ hactions hcalled => hcalled.mono .rfl hactions.extends
  · refine .seq (.lift fieldNode_actions.spec) fun elem b₃ h₃ => ?_
    have h₀₃ := trans_of (Actions p) h₁ (trans_of (Actions p) h₂ h₃)
    refine (visit_arrow (h.mono h₀₃.extends)).mono fun _ b₄ _ hcalled => ?_
    exact hcalled.mono h₀₃.extends.contexts .rfl
  · -- The model takes the call if there is a container at all, and has visited each of them.
    rintro _ b₂ - hcalled
    refine .pure fun htaken => ?_
    obtain ⟨o, ho, hcontainer⟩ : ∃ o ∈ b₁.pag.ptsOf receiver, b₁.pag.isContainer o = true := by
      simpa using htaken
    exact hcalled o (List.mem_filter.2 ⟨ho, hcontainer⟩)

theorem Container.callsPassed (hc : c.OfProgram p) : Container.model.CallsPassed p c index := by
  intro f obj fn created b h
  unfold Container.model
  dsimp only
  split
  · exact .pure nofun
  · split
    · rename_i heq
      cases heq
    · rename_i heq
      cases heq
    · split
      · rename_i base hbase
        split
        · exact onCallback_arrow (hc.not_onlyAssigned_base hbase) h
        · exact .pure nofun
      · exact .pure nofun
    · exact .pure nofun

/-- A call of `call` or `apply` says where the function object was made. -/
theorem Function.model_arrow (hc : c.OfProgram p) (h : f.Held b obj fn created) {role : SiteRole}
    (hrole : ∀ index, role ≠ .arg index)
    (hname : c.invoke.method.name = "call" ∨ c.invoke.method.name = "apply") :
    TrySpec (Actions p) (model.onObject p enqueue c role obj) b fun taken b' =>
      taken = true ∧ f.Awaited b b' c.callerCid c.site obj created := by
  obtain ⟨x, hx, hkind, rfl⟩ := h.node
  have hcall : TrySpec (Actions p) (onFunction p enqueue c obj fn x.cid) b fun taken b' =>
      taken = true ∧ f.Awaited b b' c.callerCid c.site obj x.cid := by
    have hinvoke : ∀ isApply, TrySpec (Actions p) (do
        invoke p enqueue c obj fn x.cid isApply
        return true) b fun taken b' => taken = true ∧ f.Awaited b b' c.callerCid c.site obj x.cid :=
      fun isApply => .bind (invoke_arrow hc h) fun _ _ _ hcalled => .pure ⟨rfl, hcalled⟩
    unfold onFunction
    rcases hname with hname | hname
    · rw [hname]
      exact hinvoke false
    · rw [hname]
      exact hinvoke true
  refine .get_bind ?_
  rw [hx]
  cases role with
  | arg index => exact absurd rfl (hrole index)
  | receiver =>
    dsimp only
    rw [hkind]
    exact hcall
  | unknown =>
    dsimp only
    rw [hkind]
    exact hcall

end Library

namespace LibraryModel

theorem standard_callsPassed {index : Nat} (hc : c.OfProgram p)
    (htask : Library.TaskPool.isExecute c.invoke.method = true ∨
      Library.TaskPool.isTask c.invoke.method = true → index = 0) :
    ∀ m ∈ standard, m.CallsPassed p c index := by
  intro m hm
  simp only [standard, List.mem_cons, List.not_mem_nil, or_false] at hm
  rcases hm with rfl | rfl | rfl | rfl | rfl | rfl
  · exact Library.Storage.callsPassed
  · exact Library.Function.callsPassed
  · exact Library.TaskPool.callsPassed hc htask
  · exact Library.Worker.callsPassed
  · exact Library.Container.callsPassed hc
  · exact Library.Sdk.callsPassed

theorem runOnObject_passed {index : Nat} {ms : List LibraryModel}
    (hms : ∀ m ∈ ms, m.CallsPassed p c index) (h : f.Held b obj fn created) :
    TrySpec (Actions p) (runOnObject p enqueue c (.arg index) obj ms) b fun taken b' =>
      taken = true → f.Awaited b b' c.callerCid c.site obj c.callerCid := by
  induction ms generalizing b with
  | nil => exact .pure nofun
  | cons m ms ih =>
    unfold runOnObject
    refine .bind (hms m List.mem_cons_self h) fun taken b₁ h₁ hcalled => ?_
    split
    · rename_i htaken
      exact .pure fun _ => hcalled htaken
    · refine (ih (fun m' hm' => hms m' (List.mem_cons_of_mem _ hm')) (h.mono h₁.extends)).mono ?_
      exact fun _ b₂ _ hcalled htaken => (hcalled htaken).mono h₁.extends.contexts .rfl

/-- The model of stores passes, and that of functions takes the call. -/
theorem runOnObject_named (hc : c.OfProgram p) (h : f.Held b obj fn created) {role : SiteRole}
    (hrole : ∀ index, role ≠ .arg index)
    (hname : c.invoke.method.name = "call" ∨ c.invoke.method.name = "apply") :
    TrySpec (Actions p) (runOnObject p enqueue c role obj standard) b fun taken b' =>
      taken = true ∧ f.Awaited b b' c.callerCid c.site obj created := by
  refine .bind (Library.Storage.onObject_function hrole (by rw [h.function?]; rfl)) ?_
  rintro _ _ - ⟨rfl, rfl⟩
  refine .bind (Library.Function.model_arrow hc h hrole hname) fun taken b₁ _ hcalled => ?_
  obtain ⟨rfl, hcalled⟩ := hcalled
  exact .pure ⟨rfl, hcalled⟩

end LibraryModel

end PointsTo
