import PointsTo.Library.Standard
import PointsTo.Proofs.Builder.Calls
import PointsTo.Proofs.Builder.Functions

/-!
# What library models do

All that a standard model does are steps of the builder, as long as entering a callee is. In
particular the objects that models make are objects for the solver too: what a library call returns,
what `bind` makes, and the new array of a method that copies.
-/

namespace PointsTo

open Builder (Steps)

variable {p : Program} {b : Builder}

/-- Entering a callee is a sequence of steps. -/
def Enter.IsStep (p : Program) (enter : Enter) : Prop :=
  ∀ f cid b, b.Sound p → TrySpec (Steps p) (enter f cid) b fun _ _ => True

theorem Build.enqueue_isStep : Enter.IsStep p Build.enqueue :=
  fun _ _ _ _ => Build.enqueue_spec

/-- At both chances that a model gets, all that it does are steps. -/
structure LibraryModel.Sound (p : Program) (m : LibraryModel) : Prop where
  onCall : ∀ {c b}, b.Sound p → TrySpec (Steps p) (m.onCall p c) b fun _ _ => True
  onObject : ∀ {enter c role obj b}, enter.IsStep p → b.Sound p →
    TrySpec (Steps p) (m.onObject p enter c role obj) b fun _ _ => True

/-! ## Requests that models share -/

namespace Build

theorem addSite_any {n : NodeId} {site : SiteRef} :
    Spec (Steps p) (addSite n site) b fun _ _ => True :=
  ⟨.of_step (.site n site), trivial⟩

/-- The callee of a function object is the node of its method. -/
theorem functionCallee_spec {fn : FunctionObject}
    (hfn : ∀ {f}, fn.func = some f → b.graph.methodOf? f = some fn.method) :
    Spec (Steps p) (functionCallee p fn) b fun f b' => b'.graph.methodOf? f = some fn.method := by
  unfold functionCallee
  split
  · rename_i f hf
    exact .pure (hfn hf)
  · exact funcOf_spec

theorem functionCallee_any {fn : FunctionObject} :
    Spec (Steps p) (functionCallee p fn) b fun _ _ => True := by
  unfold functionCallee
  split
  · exact .pure trivial
  · exact funcOf_spec.any

theorem callThrough_spec {enter : Enter} (henter : enter.IsStep p) (hb : b.Sound p) {c : ModelCall}
    {binding : CallBinding} :
    TrySpec (Steps p) (callThrough p enter c binding) b fun _ _ => True :=
  .seq (.lift addCall_spec.any) fun _ _ h₁ => .discard (connect_steps henter (h₁.sound hb))

theorem watchArg_spec (hb : b.Sound p) {c : ModelCall} {index : Nat} :
    Spec (Steps p) (watchArg p c index) b fun _ _ => True := by
  unfold watchArg
  split
  · exact .seq (valueNode_spec hb).any fun _ _ _ => .discard addSite_any
  · exact .pure trivial

theorem argNode?_spec (hb : b.Sound p) {c : ModelCall} {index : Nat} :
    Spec (Steps p) (argNode? p c index) b fun n b' => IsBase b' n := by
  unfold argNode?
  split
  · rename_i v hv
    exact .map ((valueNode_spec hb).mono fun _ _ _ hn =>
      isBase_of_nodeIn? (entityOf_isPlain p v) hn)
  · exact .pure fun _ h => nomatch h

theorem resultNode?_spec (hb : b.Sound p) {c : ModelCall} :
    Spec (Steps p) (resultNode? p c) b fun _ _ => True := by
  unfold resultNode?
  split
  · exact .map (valueNode_spec hb).any
  · exact .pure trivial

end Build

open Build

/-! ## Stores with text keys -/

theorem Library.Storage.slot_isPlain (store key : String) : (slot store key).IsPlain := by
  show "storage" ≠ "container"
  decide

theorem Library.Storage.read_spec (hb : b.Sound p) {c : ModelCall} {n : NodeId} :
    Spec (Steps p) (do
      if Library.Storage.readers.contains c.callee.name then
        if let some dst ← resultNode? p c then discard (addEdge .copy n dst)
      return true) b fun _ _ => True := by
  dsimp only
  split
  · refine .seq (resultNode?_spec hb) fun dst b₁ _ => ?_
    split
    · exact .seq (.discard (addCopyEdge_spec (by decide))) fun _ _ _ => .pure trivial
    · exact .pure trivial
  · exact .pure trivial

theorem Library.Storage.access_spec (hb : b.Sound p) {c : ModelCall} {store : String} :
    Spec (Steps p) (Library.Storage.access p c store) b fun _ _ => True := by
  unfold Library.Storage.access
  dsimp only
  split
  · exact .pure trivial
  · split
    · refine .seq (nodeOf_spec hb (Library.Storage.slot_isPlain _ _)).any fun n b₁ h₁ => ?_
      have hb₁ := h₁.sound hb
      split
      · refine .seq (argNode?_spec hb₁).any fun src b₂ h₂ => ?_
        split
        · refine .seq (.discard (addCopyEdge_spec (by decide))) fun _ b₃ h₃ => ?_
          exact Library.Storage.read_spec (h₃.sound (h₂.sound hb₁))
        · exact Library.Storage.read_spec (h₂.sound hb₁)
      · exact Library.Storage.read_spec hb₁
    · exact .pure trivial

theorem Library.Storage.model_sound : Library.Storage.model.Sound p where
  onCall := fun hb => .lift (Library.Storage.access_spec hb)
  onObject := fun _ hb => by
    refine .get_bind ?_
    split
    · exact .pure trivial
    · exact .pure trivial
    · exact .lift (Library.Storage.access_spec hb)

/-! ## Function objects -/

/-- Functions are no stores. -/
theorem Library.Storage.storeOf?_function {g : Pag} {obj : NodeId}
    (h : (g.function? obj).isSome = true) : storeOf? g obj = none := by
  obtain ⟨fn, hfn⟩ := Option.isSome_iff_exists.1 h
  obtain ⟨node, hnode, hkind⟩ := Option.bind_eq_some_iff.1 hfn
  unfold storeOf?
  rw [hnode, Option.map_some, NodeKind.eq_function_of_function? hkind]

/-- So the model passes a call on a function. -/
theorem Library.Storage.onObject_function {R : Builder → Builder → Prop} [IsPreorder Builder R]
    {enter : Enter} {c : ModelCall} {role : SiteRole} {obj : NodeId}
    (hrole : ∀ index, role ≠ .arg index) (hfn : (b.pag.function? obj).isSome = true) :
    TrySpec R (Library.Storage.model.onObject p enter c role obj) b
      fun taken b' => taken = false ∧ b' = b := by
  refine .get_bind ?_
  rw [storeOf?_function hfn]
  cases role with
  | arg index => exact absurd rfl (hrole index)
  | receiver => exact .pure ⟨rfl, rfl⟩
  | unknown => exact .pure ⟨rfl, rfl⟩

namespace Library.Function

theorem receiver_spec (hb : b.Sound p) {c : ModelCall} {fn : FunctionObject} :
    Spec (Steps p) (receiver p c fn) b fun _ _ => True := by
  unfold receiver
  split
  · exact .pure trivial
  · exact (argNode?_spec hb).any

theorem spreadNode?_spec (hb : b.Sound p) {c : ModelCall} :
    Spec (Steps p) (spreadNode? p c) b fun _ _ => True := by
  unfold spreadNode?
  refine .bind (argNode?_spec hb) fun base b₁ h₁ hbase => ?_
  split
  · rename_i n
    have hfits : b₁.Fits p (.modelSlot "apply" s!"s{c.stmt}") (.reference (some n) .element none) :=
      fits_reference hbase (by show ¬"apply" = "container"; decide)
    exact .map (nodeWithKind_spec (h₁.sound hb) hfits).any
  · exact .pure trivial

theorem invoke_spec {enter : Enter} (henter : enter.IsStep p) (hb : b.Sound p) {c : ModelCall}
    {obj : NodeId} {fn : FunctionObject} {cid : ContextId} {isApply : Bool} :
    TrySpec (Steps p) (invoke p enter c obj fn cid isApply) b fun _ _ => True := by
  have finish : ∀ callee thisSrc spread rest b₁, b₁.Sound p → TrySpec (Steps p) (do
      let result ← resultNode? p c
      callThrough p enter c { c.bindingOf callee obj fn with
        thisSrc, args := fn.boundArgs ++ rest, spread, result, functionCid := some cid }) b₁
      fun _ _ => True := by
    intro callee thisSrc spread rest b₁ hb₁
    refine .seq (.lift (resultNode?_spec hb₁)) fun result b₂ h₂ => ?_
    exact callThrough_spec henter (h₂.sound hb₁)
  unfold invoke
  refine .seq (.lift functionCallee_any) fun callee b₁ h₁ => ?_
  have hb₁ := h₁.sound hb
  refine .seq (.lift (receiver_spec hb₁)) fun thisSrc b₂ h₂ => ?_
  have hb₂ := h₂.sound hb₁
  cases isApply with
  | true =>
    refine .seq (.lift (spreadNode?_spec hb₂)) fun spread b₃ h₃ => ?_
    exact finish callee thisSrc spread [] b₃ (h₃.sound hb₂)
  | false =>
    refine .seq (.pure trivial) fun spread b₃ h₃ => ?_
    refine .seq (.lift (argNodes_spec (h₃.sound hb₂) _ _)) fun rest b₄ h₄ => ?_
    exact finish callee thisSrc spread rest b₄ (h₄.sound (h₃.sound hb₂))

/-- The function that `bind` makes of `obj` at the statement is assigned to `v`. -/
def IsBound (p : Program) (g : Pag) (cid : ContextId) (stmt : StmtId) (obj : NodeId) (v : ValueId) :
    Prop :=
  ∃ n dst, g.find? cid (.boundFunction stmt obj) = some n ∧
    nodeIn? g cid (entityOf p v) = some dst ∧ ⟨.address, n, dst⟩ ∈ g.edges

theorem IsBound.mono {g g' : Pag} {cid : ContextId} {stmt : StmtId} {obj : NodeId} {v : ValueId}
    (h : IsBound p g cid stmt obj v) (hg : g.Extends g') : IsBound p g' cid stmt obj v := by
  obtain ⟨n, dst, hn, hdst, he⟩ := h
  exact ⟨n, dst, hg.find? hn, nodeIn?_mono (entityOf_isPlain p v) hg hdst, hg.edge he⟩

/-- The function that `bind` makes is an object, and it stands for the same method. It is assigned
to the result, if there is one. -/
theorem bind_spec (hb : b.Sound p) {c : ModelCall} {obj : NodeId} {fn : FunctionObject}
    (hfn : ∀ {f}, fn.func = some f → b.graph.methodOf? f = some fn.method) :
    Spec (Steps p) (bind p c obj fn) b fun _ b' =>
      ∀ v, c.result = some v → IsBound p b'.pag c.callerCid c.stmt obj v := by
  unfold bind
  split
  · rename_i v hv
    refine .bind (functionCallee_spec hfn) fun func b₁ h₁ hfunc => ?_
    have hb₁ := h₁.sound hb
    refine .seq (receiver_spec hb₁) fun boundThis b₂ h₂ => ?_
    have hb₂ := h₂.sound hb₁
    refine .seq (argNodes_spec hb₂ _ _) fun more b₃ h₃ => ?_
    have hb₃ := h₃.sound hb₂
    have hfunc₃ := (trans_of (Steps p) h₂ h₃).grows.graph.method hfunc
    refine .bind (nodeWithKind_spec hb₃ ⟨fun _ => rfl, (nomatch ·), ?_, fun _ => ⟨_, rfl⟩⟩)
      fun n b₄ h₄ hn => ?_
    · rintro _ _ ⟨⟩ ⟨⟩
      exact hfunc₃
    · refine .bind (valueNode_spec (h₄.sound hb₃)) fun dst b₅ h₅ hdst => ?_
      have hb₅ := h₅.sound (h₄.sound hb₃)
      have hn₅ := h₅.grows.pag.find? hn
      obtain ⟨⟨node, hnode, -, he⟩, -⟩ := Pag.find?_eq_some_iff.1 hn₅
      have hobject : b₅.pag.isObject n = true :=
        Pag.isObject_iff.2 ⟨node, hnode, (hb₅.fits hnode).object (by rw [he]; trivial)⟩
      refine .discard ⟨(addEdge_spec fun _ => hobject).1, fun v' hv' => ?_⟩
      rw [hv] at hv'
      cases hv'
      rw [Builder.run_addEdge]
      have hg := b₅.pag.addEdge_extends .address n dst
      refine ⟨n, dst, hg.find? hn₅, nodeIn?_mono (entityOf_isPlain p v) hg hdst, ?_⟩
      exact Pag.mem_edges_of_addEdge (Pag.node?_lt hnode) (lt_of_nodeIn? hdst)
  · rename_i hnone
    exact .pure fun v hv => absurd hv (hnone v)

/-- A call of `bind` is taken, and what it makes is assigned. -/
theorem onFunction_spec {enter : Enter} (henter : enter.IsStep p) (hb : b.Sound p) {c : ModelCall}
    {obj : NodeId} {fn : FunctionObject} {cid : ContextId}
    (hfn : ∀ {f}, fn.func = some f → b.graph.methodOf? f = some fn.method) :
    TrySpec (Steps p) (onFunction p enter c obj fn cid) b fun taken b' =>
      c.invoke.method.name = "bind" → taken = true ∧
        ∀ v, c.result = some v → IsBound p b'.pag c.callerCid c.stmt obj v := by
  unfold onFunction
  split
  · rename_i hname
    refine .seq (invoke_spec henter hb) fun _ _ _ => .pure fun hbind => ?_
    exact absurd (hname.symm.trans hbind) (by decide)
  · rename_i hname
    refine .seq (invoke_spec henter hb) fun _ _ _ => .pure fun hbind => ?_
    exact absurd (hname.symm.trans hbind) (by decide)
  · exact .bind (.lift (bind_spec hb hfn)) fun _ _ _ hbound => .pure fun _ => ⟨rfl, hbound⟩
  · rename_i hno
    exact .pure fun hbind => absurd hbind hno

/-- A function object that reaches a call of `bind` is bound. -/
theorem onObject_spec {enter : Enter} (henter : enter.IsStep p) (hb : b.Sound p) {c : ModelCall}
    {role : SiteRole} {obj : NodeId} : TrySpec (Steps p) (model.onObject p enter c role obj) b
      fun taken b' => (∀ index, role ≠ .arg index) → (b.pag.function? obj).isSome = true →
        c.invoke.method.name = "bind" → taken = true ∧
          ∀ v, c.result = some v → IsBound p b'.pag c.callerCid c.stmt obj v := by
  refine .get_bind ?_
  split
  · rename_i index
    exact .pure fun hrole => absurd rfl (hrole index)
  · rename_i hnone
    refine .pure fun _ hfn => ?_
    simp [Pag.function?, hnone] at hfn
  · rename_i n _ hn
    split
    · rename_i fn hfn
      have hkind : n.kind = .function fn := NodeKind.eq_function_of_function? hfn
      refine (onFunction_spec henter hb fun hf => (hb.fits hn).func hkind hf).mono ?_
      exact fun _ _ _ hbound _ _ => hbound
    · rename_i hfn
      refine .pure fun _ hsome => ?_
      simp [Pag.function?, hn, hfn] at hsome

theorem model_sound : model.Sound p where
  onCall := fun _ => .pure trivial
  onObject := fun henter hb => (onObject_spec henter hb).any

end Library.Function

/-! ## Tasks and workers -/

namespace Library.TaskPool

theorem run_spec {enter : Enter} (henter : enter.IsStep p) (hb : b.Sound p) {c : ModelCall}
    {obj : NodeId} {fn : FunctionObject} :
    TrySpec (Steps p) (run p enter c obj fn) b fun _ _ => True := by
  unfold run
  refine .seq (.lift functionCallee_any) fun callee b₁ h₁ => ?_
  have hb₁ := h₁.sound hb
  refine .seq (.lift (argNodes_spec hb₁ _ _)) fun rest b₂ h₂ => ?_
  have hb₂ := h₂.sound hb₁
  dsimp only
  split
  · refine .seq (.lift (resultNode?_spec hb₂)) fun result b₃ h₃ => ?_
    exact callThrough_spec henter (h₃.sound hb₂)
  · exact callThrough_spec henter hb₂

theorem model_sound : model.Sound p where
  onCall := fun hb => .seq (.lift (watchArg_spec hb)) fun _ _ _ => .pure trivial
  onObject := fun henter hb => by
    unfold model
    dsimp only
    split
    · exact .pure trivial
    · split
      · exact .seq (.lift (watchArg_spec hb)) fun _ _ _ => .pure trivial
      · refine .get_bind ?_
        split
        · exact .seq (run_spec henter hb) fun _ _ _ => .pure trivial
        · exact .pure trivial

end Library.TaskPool

namespace Library.Worker

theorem channel_spec (hb : b.Sound p) : Spec (Steps p) (channel p) b fun _ _ => True :=
  (nodeOf_spec hb (by show "worker" ≠ "container"; decide)).any

theorem access_spec (hb : b.Sound p) {c : ModelCall} :
    Spec (Steps p) (access p c) b fun _ _ => True := by
  unfold access
  split
  · refine .seq (argNode?_spec hb).any fun src b₁ h₁ => ?_
    split
    · refine .seq (channel_spec (h₁.sound hb)) fun dst b₂ _ => ?_
      exact .discard (addCopyEdge_spec (by decide))
    · exact .pure trivial
  · split
    · exact watchArg_spec hb
    · exact .pure trivial

theorem run_spec {enter : Enter} (henter : enter.IsStep p) (hb : b.Sound p) {c : ModelCall}
    {obj : NodeId} {fn : FunctionObject} :
    TrySpec (Steps p) (run p enter c obj fn) b fun _ _ => True := by
  unfold run
  refine .seq (.lift functionCallee_any) fun callee b₁ h₁ => ?_
  refine .seq (.lift (channel_spec (h₁.sound hb))) fun message b₂ h₂ => ?_
  exact callThrough_spec henter (h₂.sound (h₁.sound hb))

theorem model_sound : model.Sound p where
  onCall := fun hb => .seq (.lift (access_spec hb)) fun _ _ _ => .pure trivial
  onObject := fun henter hb => by
    unfold model
    dsimp only
    split
    · exact .pure trivial
    · split
      · refine .get_bind ?_
        split
        · exact .seq (run_spec henter hb) fun _ _ _ => .pure trivial
        · exact .pure trivial
      · exact .seq (.lift (access_spec hb)) fun _ _ _ => .pure trivial

end Library.Worker

/-! ## Other library calls -/

namespace Library.Sdk

theorem access_spec (hb : b.Sound p) {c : ModelCall} :
    Spec (Steps p) (access p c) b fun _ _ => True := by
  have watch : ∀ b₁, b₁.Sound p →
      Spec (Steps p) (c.positions.forM (watchArg p c)) b₁ fun _ _ => True :=
    fun b₁ hb₁ => .forM_any fun _ _ _ h₂ => watchArg_spec (h₂.sound hb₁)
  unfold access
  dsimp only
  split
  · refine .bind (nodeOf_spec hb trivial) fun obj b₁ h₁ hobj => ?_
    have hb₁ := h₁.sound hb
    refine .seq (valueNode_spec hb₁).any fun dst b₂ h₂ => ?_
    have hb₂ := h₂.sound hb₁
    refine .seq (.discard (addEdge_spec fun _ => ?_)) fun _ b₃ h₃ => watch b₃ (h₃.sound hb₂)
    have hobj₂ := nodeIn?_mono (e := .sdkReturn c.stmt) trivial h₂.grows.pag hobj
    exact isObject_of_nodeIn? hb₂ hobj₂ trivial
  · exact watch b hb

theorem run_spec {enter : Enter} (henter : enter.IsStep p) (hb : b.Sound p) {c : ModelCall}
    {obj : NodeId} {fn : FunctionObject} :
    TrySpec (Steps p) (run p enter c obj fn) b fun _ _ => True :=
  .seq (.lift functionCallee_any) fun _ _ h₁ => callThrough_spec henter (h₁.sound hb)

theorem model_sound : model.Sound p where
  onCall := fun hb => .seq (.lift (access_spec hb)) fun _ _ _ => .pure trivial
  onObject := fun henter hb => by
    unfold model
    dsimp only
    split
    · exact .pure trivial
    · split
      · refine .get_bind ?_
        split
        · exact .seq (run_spec henter hb) fun _ _ _ => .pure trivial
        · exact .pure trivial
      · exact .seq (.lift (access_spec hb)) fun _ _ _ => .pure trivial

end Library.Sdk

/-! ## Containers -/

namespace Library.Container

theorem visit_spec {enter : Enter} (henter : enter.IsStep p) (hb : b.Sound p) {c : ModelCall}
    {elem obj : NodeId} : TrySpec (Steps p) (visit p enter c elem obj) b fun _ _ => True := by
  unfold visit
  refine .get_bind ?_
  split
  · refine .seq (.lift functionCallee_any) fun callee b₁ h₁ => ?_
    exact callThrough_spec henter (h₁.sound hb)
  · exact .pure trivial

theorem concatArg_spec (hb : b.Sound p) {c : ModelCall} {newElem : NodeId} {index : Nat} :
    Spec (Steps p) (concatArg p c newElem index) b fun _ _ => True := by
  unfold concatArg
  split
  · rename_i v hv
    refine .bind (valueNode_spec hb) fun n b₁ h₁ hn => ?_
    split
    · have hfits : b₁.Fits p (.modelSlot "concat" s!"s{c.stmt}#{index}")
          (.reference (some n) .element none) :=
        fits_reference (isBase_of_nodeIn? (entityOf_isPlain p v) hn)
          (by show ¬"concat" = "container"; decide)
      refine .seq (nodeWithKind_spec (h₁.sound hb) hfits).any fun spread b₂ _ => ?_
      exact .discard (addCopyEdge_spec (by decide))
    · exact .discard (addCopyEdge_spec (by decide))
  · exact .pure trivial

/-- The new array is an object. -/
theorem copyInto_spec (hb : b.Sound p) {c : ModelCall} {elem : NodeId} {result : ValueId} :
    Spec (Steps p) (copyInto p c elem result) b fun _ _ => True := by
  have hfits : b.Fits p (.modelSlot "container" s!"s{c.stmt}") (.heapObj none (some .array)) :=
    fits_of_object nofun rfl rfl fun _ => rfl
  unfold copyInto
  refine .bind (nodeWithKind_spec hb hfits) fun copy b₁ h₁ hcopy => ?_
  have hb₁ := h₁.sound hb
  refine .seq (valueNode_spec hb₁).any fun dst b₂ h₂ => ?_
  have hb₂ := h₂.sound hb₁
  refine .seq (.discard (addEdge_spec fun _ => ?_)) fun _ b₃ h₃ => ?_
  · obtain ⟨⟨node, hnode, -, he⟩, -⟩ := Pag.find?_eq_some_iff.1 (h₂.grows.pag.find? hcopy)
    exact Pag.isObject_iff.2 ⟨node, hnode, (hb₂.fits hnode).object (by rw [he]; rfl)⟩
  · refine .seq fieldNode_spec fun newElem b₄ h₄ => ?_
    refine .seq (.discard (addCopyEdge_spec (by decide))) fun _ b₅ h₅ => ?_
    have hb₅ := h₅.sound (h₄.sound (h₃.sound hb₂))
    split
    · exact .forM_any fun _ _ _ h₆ => concatArg_spec (h₆.sound hb₅)
    · exact .pure trivial

theorem giveResult_spec (hb : b.Sound p) {c : ModelCall} {elem : NodeId} {result : ValueId} :
    Spec (Steps p) (giveResult p c elem result) b fun _ _ => True := by
  unfold giveResult
  dsimp only
  split
  · refine .seq (valueNode_spec hb).any fun dst b₁ _ => ?_
    exact .discard (addCopyEdge_spec (by decide))
  · split
    · split
      · refine .seq (valueNode_spec hb).any fun src b₁ h₁ => ?_
        refine .seq (valueNode_spec (h₁.sound hb)).any fun dst b₂ _ => ?_
        exact .discard (addCopyEdge_spec (by decide))
      · exact .pure trivial
    · split
      · exact copyInto_spec hb
      · exact .pure trivial

/-- A function that is called for each element. -/
theorem visitElements_spec {enter : Enter} (henter : enter.IsStep p) (hb : b.Sound p)
    {c : ModelCall} {elem : NodeId} : TrySpec (Steps p) (do
      if visitors.contains c.invoke.method.name then
        if let some n ← argNode? p c 0 then
          discard (addSite n { stmt := c.stmt, role := .arg 0 })
          ((← get).pag.ptsOf n).forM (visit p enter c elem)) b fun _ _ => True := by
  split
  · refine .seq (.lift (argNode?_spec hb).any) fun n b₁ h₁ => ?_
    have hb₁ := h₁.sound hb
    split
    · refine .seq (.lift (.discard addSite_any)) fun _ b₂ h₂ => .get_bind ?_
      exact .forM_any fun _ _ _ h₃ => visit_spec henter (h₃.sound (h₂.sound hb₁))
    · exact .pure trivial
  · exact .pure trivial

theorem onContainer_spec {enter : Enter} (henter : enter.IsStep p) (hb : b.Sound p)
    {c : ModelCall} {obj : NodeId} :
    TrySpec (Steps p) (onContainer p enter c obj) b fun _ _ => True := by
  unfold onContainer
  refine .seq (.lift fieldNode_spec) fun elem b₁ h₁ => ?_
  have hb₁ := h₁.sound hb
  refine .seq (.forM_any fun index _ b₂ h₂ => ?_) fun _ b₂ h₂ => ?_
  · refine .seq (.lift (argNode?_spec (h₂.sound hb₁)).any) fun src b₃ _ => ?_
    split
    · exact .lift (.discard (addCopyEdge_spec (by decide)))
    · exact .pure trivial
  · have hb₂ := h₂.sound hb₁
    dsimp only
    split
    · refine .seq (.lift (giveResult_spec hb₂)) fun _ b₃ h₃ => ?_
      exact visitElements_spec henter (h₃.sound hb₂)
    · exact visitElements_spec henter hb₂

theorem onCallback_spec {enter : Enter} (henter : enter.IsStep p) (hb : b.Sound p) {c : ModelCall}
    {base : ValueId} {obj : NodeId} :
    TrySpec (Steps p) (onCallback p enter c base obj) b fun _ _ => True := by
  unfold onCallback
  refine .seq (.lift (valueNode_spec hb).any) fun receiver b₁ h₁ => .get_bind ?_
  refine .seq (.forM_any fun o _ b₂ h₂ => ?_) fun _ _ _ => .pure trivial
  refine .seq (.lift fieldNode_spec) fun elem b₃ h₃ => ?_
  exact visit_spec henter (h₃.sound (h₂.sound (h₁.sound hb)))

theorem model_sound : model.Sound p where
  onCall := fun _ => .pure trivial
  onObject := fun {enter c role obj b} henter hb => by
    have receiver : TrySpec (Steps p) (do
        if (← get).pag.isContainer obj then
          onContainer p enter c obj
          return true
        else return false : TryBuild Bool) b fun _ _ => True := by
      refine .get_bind ?_
      split
      · exact .seq (onContainer_spec henter hb) fun _ _ _ => .pure trivial
      · exact .pure trivial
    unfold model
    dsimp only
    split
    · exact .pure trivial
    · split
      · exact receiver
      · exact receiver
      · split
        · split
          · exact onCallback_spec henter hb
          · exact .pure trivial
        · exact .pure trivial
      · exact .pure trivial

end Library.Container

/-! ## All models -/

namespace LibraryModel

theorem standard_sound (p : Program) : ∀ m ∈ standard, m.Sound p := by
  intro m hm
  simp only [standard, List.mem_cons, List.not_mem_nil, or_false] at hm
  rcases hm with rfl | rfl | rfl | rfl | rfl | rfl
  · exact Library.Storage.model_sound
  · exact Library.Function.model_sound
  · exact Library.TaskPool.model_sound
  · exact Library.Worker.model_sound
  · exact Library.Container.model_sound
  · exact Library.Sdk.model_sound

theorem runOnCall_spec (hb : b.Sound p) {c : ModelCall} {ms : List LibraryModel}
    (hms : ∀ m ∈ ms, m.Sound p) : TrySpec (Steps p) (runOnCall p c ms) b fun _ _ => True := by
  induction ms generalizing b with
  | nil => exact .pure trivial
  | cons m ms ih =>
    have hrest : ∀ {b₁ : Builder}, b₁.Sound p → TrySpec (Steps p) (runOnCall p c ms) b₁
        fun _ _ => True := fun hb₁ => ih hb₁ fun m' hm' => hms m' (List.mem_cons_of_mem _ hm')
    unfold runOnCall
    dsimp only
    split
    · refine .seq ((hms m List.mem_cons_self).onCall hb) fun taken b₁ h₁ => ?_
      split
      · exact .pure trivial
      · exact hrest (h₁.sound hb)
    · exact hrest hb

theorem runOnObject_spec {enter : Enter} (henter : enter.IsStep p) (hb : b.Sound p) {c : ModelCall}
    {role : SiteRole} {obj : NodeId} {ms : List LibraryModel} (hms : ∀ m ∈ ms, m.Sound p) :
    TrySpec (Steps p) (runOnObject p enter c role obj ms) b fun _ _ => True := by
  induction ms generalizing b with
  | nil => exact .pure trivial
  | cons m ms ih =>
    unfold runOnObject
    refine .seq ((hms m List.mem_cons_self).onObject henter hb) fun taken b₁ h₁ => ?_
    split
    · exact .pure trivial
    · exact ih (h₁.sound hb) fun m' hm' => hms m' (List.mem_cons_of_mem _ hm')

end LibraryModel

end PointsTo
