import PointsTo.Proofs.Confined.Calls

/-!
# Library models keep a builder confined

What a model adds is named by the call that it models: slots are named by its statement or by a
constant of the program, watched arguments are arguments it has, and the functions that `bind` makes
are told apart by the statement and by the function bound.
-/

namespace PointsTo

open Builder (KeepsConfined)

variable {p : Program} {g : CallGraph} {b b' : Builder} {c : ModelCall}

/-- The call is one of the program, in a context that there is. -/
structure ModelCall.Confined (p : Program) (g : CallGraph) (b : Builder) (c : ModelCall) :
    Prop where
  builder : b.Confined p g
  invoke : p.invokeOf? c.stmt = some c.invoke
  result : (p.stmt? c.stmt).bind Stmt.defValue? = c.result
  caller : b.HasContext c.callerCid
  site : g.HasId c.site

namespace ModelCall.Confined

theorem keep (h : c.Confined p g b) (hb : KeepsConfined p g b b') : c.Confined p g b' where
  builder := hb.confined h.builder
  invoke := h.invoke
  result := h.result
  caller := hb.expands.hasContext h.caller
  site := h.site

theorem stmt_lt (h : c.Confined p g b) : c.stmt < p.stmts.size :=
  Program.lt_of_invokeOf? h.invoke

theorem mentions_result (h : c.Confined p g b) {v : ValueId} (hv : c.result = some v) :
    p.Mentions v :=
  Program.mentions_of_defValue? (h.result.trans hv)

/-- The call of a function object, whatever it passes. -/
theorem binding (h : c.Confined p g b) {callee : FuncId} (hf : callee < b.graph.nodes.size)
    {obj : NodeId} (hobj : b.pag.isObject obj = true) {thisSrc spread result : Option NodeId}
    {args : List (NodeId × Nat)} {functionCid : Option ContextId}
    (hcid : ∀ cid, functionCid = some cid → b.HasContext cid) : CallBinding.Confined g b {
      site := c.site, callerCid := c.callerCid, callee, contextObj := some obj, thisSrc, args
      spread, result, functionCid } where
  site := h.site
  caller := h.caller
  callee := hf
  object o ho := by
    cases ho
    exact hobj
  function := hcid

end ModelCall.Confined

theorem ModelCall.localArg?_eq_some {index : Nat} {v : ValueId}
    (h : c.localArg? p index = some v) : index < c.invoke.args.length ∧ p.isLocal v = true := by
  obtain ⟨hv, hlocal⟩ := Option.filter_eq_some_iff.1 h
  exact ⟨(List.getElem?_eq_some_iff.1 hv).1, hlocal⟩

/-- Both chances that a model gets keep the builder confined, and need no fuel. -/
structure LibraryModel.Terminates (p : Program) (g : CallGraph) (m : LibraryModel) : Prop where
  onCall : ∀ {c b}, c.Confined p g b → m.handles p c.callee = true →
    TryTerminates p.IsMisplaced (KeepsConfined p g) (m.onCall p c) b fun _ _ => True
  onObject : ∀ {c role obj b}, c.Confined p g b → b.pag.isObject obj = true →
    TryTerminates p.IsMisplaced (KeepsConfined p g) (m.onObject p Build.enqueue c role obj) b
      fun _ _ => True

/-! ## Requests that models share -/

namespace Build

/-- The method behind a function object is one that the program names. -/
theorem functionCallee_keepsConfined (hb : b.Confined p g) {obj : NodeId} {fn : FunctionObject}
    (hfn : b.pag.function? obj = some fn) :
    Spec (KeepsConfined p g) (functionCallee p fn) b fun f b' => f < b'.graph.nodes.size := by
  obtain ⟨x, hx, hkind⟩ := Option.bind_eq_some_iff.1 hfn
  obtain ⟨hmethod, hfunc⟩ := (hb.node hx).kind.function hkind
  unfold functionCallee
  split
  · rename_i f hf
    exact .pure (hfunc hf)
  · exact funcOf_keepsConfined hmethod

theorem callThrough_terminates (hc : c.Confined p g b) {binding : CallBinding}
    (hbinding : binding.Confined g b) :
    TryTerminates p.IsMisplaced (KeepsConfined p g) (callThrough p enqueue c binding) b
      fun _ _ => True := by
  have connects : ∀ {b₁}, KeepsConfined p g b b₁ →
      TryTerminates p.IsMisplaced (KeepsConfined p g) (connect p enqueue binding) b₁
        fun _ _ => True := by
    intro b₁ h₁
    have : Lasts (KeepsConfined p g) fun _ => False := ⟨fun _ h => h⟩
    exact (connect_terminates enqueue_terminates (h₁.confined hc.builder)
      (hbinding.mono h₁.expands)).tryTerminates
  exact .seq (.lift (addCall_keepsConfined hc.stmt_lt)) fun _ b₁ h₁ => .discard (connects h₁)

theorem watchArg_keepsConfined (hc : c.Confined p g b) {index : Nat} :
    Spec (KeepsConfined p g) (watchArg p c index) b fun _ _ => True := by
  unfold watchArg
  split
  · rename_i v hv
    obtain ⟨hindex, hlocal⟩ := ModelCall.localArg?_eq_some hv
    refine .bind (valueNode_locates hc.builder hc.caller (Program.mentions_of_isLocal hlocal))
      fun n b₁ _ hn => .discard (addSite_keepsConfined hn ⟨c.invoke, hc.invoke, ?_⟩)
    rintro _ ⟨⟩
    exact hindex
  · exact .pure trivial

/-- If the answer is a node, the node is there, and so is the argument. -/
theorem argNode?_keepsConfined (hc : c.Confined p g b) {index : Nat} :
    Spec (KeepsConfined p g) (argNode? p c index) b fun n b' =>
      ∀ m, n = some m → b'.pag.IsOwner m ∧ index < c.invoke.args.length := by
  unfold argNode?
  split
  · rename_i v hv
    obtain ⟨hindex, hlocal⟩ := ModelCall.localArg?_eq_some hv
    refine .map ((valueNode_locates hc.builder hc.caller
      (Program.mentions_of_isLocal hlocal)).mono fun n _ _ hn => ?_)
    rintro _ ⟨⟩
    exact ⟨hn, hindex⟩
  · exact .pure nofun

theorem resultNode?_keepsConfined (hc : c.Confined p g b) :
    Spec (KeepsConfined p g) (resultNode? p c) b fun _ _ => True := by
  unfold resultNode?
  split
  · rename_i v hv
    exact .map (valueNode_keepsConfined hc.builder hc.caller (hc.mentions_result hv))
  · exact .pure trivial

/-- The node of a slot that the program has. -/
theorem slotNode_keepsConfined {cid : ContextId} (hcid : b.HasContext cid)
    {owner key : String} (hslot : p.HasSlot owner key) {kind : NodeKind}
    (hkind : b.HasKind p g (.modelSlot owner key) kind) :
    Spec (KeepsConfined p g) (nodeWithKind p cid (.modelSlot owner key) kind) b fun n b' =>
      b'.pag.IsOwner n :=
  (nodeWithKind_keepsConfined hcid (Pag.belongs_of_plain id rfl)
    (hasEntity_of_names (e := .modelSlot owner key) hslot) hkind).mono fun _ _ _ hn =>
    hn.isOwner rfl

end Build

open Build

/-! ## Stores with text keys -/

namespace Library.Storage

theorem read_keepsConfined (hc : c.Confined p g b) {n : NodeId} : Spec (KeepsConfined p g) (do
      if readers.contains c.callee.name then
        if let some dst ← resultNode? p c then discard (addEdge .copy n dst)
      return true) b fun _ _ => True := by
  dsimp only
  split
  · refine .seq (resultNode?_keepsConfined hc) fun dst b₁ _ => ?_
    split
    · exact .seq (.discard addEdge_keepsConfined) fun _ _ _ => .pure trivial
    · exact .pure trivial
  · exact .pure trivial

/-- The key of a slot is a constant of the program. -/
theorem names_slot {store key : String} (hstore : store ∈ storeClasses)
    (hkey : c.constArg? p 0 = some key) : p.Names (slot store key) := by
  unfold ModelCall.constArg? at hkey
  split at hkey
  · rename_i ty text hv
    cases hkey
    obtain ⟨v, -, hv⟩ := Option.bind_eq_some_iff.1 hv
    exact .storage hstore (Program.mem_values hv)
  · cases hkey

theorem access_keepsConfined (hc : c.Confined p g b) {store : String}
    (hstore : store ∈ storeClasses) :
    Spec (KeepsConfined p g) (access p c store) b fun _ _ => True := by
  unfold access
  dsimp only
  split
  · exact .pure trivial
  · split
    · rename_i key hkey
      refine .seq (nodeOf_keepsConfined hc.builder hc.builder.hasContext_root
        (names_slot hstore hkey)) fun n b₁ h₁ => ?_
      have hc₁ := hc.keep h₁
      split
      · refine .seq (argNode?_keepsConfined hc₁).any fun src b₂ h₂ => ?_
        have hc₂ := hc₁.keep h₂
        split
        · exact .seq (.discard addEdge_keepsConfined) fun _ b₃ h₃ =>
            read_keepsConfined (hc₂.keep h₃)
        · exact read_keepsConfined hc₂
      · exact read_keepsConfined hc₁
    · exact .pure trivial

theorem model_terminates : model.Terminates p g where
  onCall hc hhandles := .lift (access_keepsConfined hc (by simpa [model] using hhandles))
  onObject hc _ := by
    refine .get_bind ?_
    split
    · exact .pure trivial
    · exact .pure trivial
    · rename_i store _ hstore
      refine .lift (access_keepsConfined hc ?_)
      unfold storeOf? at hstore
      split at hstore
      · split at hstore
        · cases hstore
          simpa using ‹storeClasses.contains _ = true›
        · cases hstore
      · cases hstore

end Library.Storage

/-! ## Function objects -/

namespace Library.Function

theorem receiver_keepsConfined (hc : c.Confined p g b) {fn : FunctionObject}
    (hthis : IsNode? b fn.boundThis) :
    Spec (KeepsConfined p g) (receiver p c fn) b fun n b' => IsNode? b' n := by
  unfold receiver
  split
  · rename_i n hn
    exact .pure (isNode?_some (hthis n hn))
  · exact (argNode?_keepsConfined hc).mono fun _ _ _ hn m hm => (hn m hm).1.lt

theorem spreadNode?_keepsConfined (hc : c.Confined p g b) :
    Spec (KeepsConfined p g) (spreadNode? p c) b fun _ _ => True := by
  unfold spreadNode?
  refine .bind (argNode?_keepsConfined hc) fun base b₁ h₁ hbase => ?_
  have hc₁ := hc.keep h₁
  split
  · exact .map (slotNode_keepsConfined hc₁.caller (.apply hc₁.stmt_lt)
      (hasKind_reference (Or.inl rfl) (fun m hm => (hbase m hm).1.lt) isNode?_none id)).any
  · exact .pure trivial

theorem invoke_terminates (hc : c.Confined p g b) {obj : NodeId} (hobj : b.pag.isObject obj = true)
    {fn : FunctionObject} (hfn : b.pag.function? obj = some fn) {cid : ContextId}
    (hcid : b.HasContext cid) {isApply : Bool} :
    TryTerminates p.IsMisplaced (KeepsConfined p g) (invoke p enqueue c obj fn cid isApply) b
      fun _ _ => True := by
  have finish :
    ∀ callee thisSrc spread rest b₁, KeepsConfined p g b b₁ → callee < b₁.graph.nodes.size →
      TryTerminates p.IsMisplaced (KeepsConfined p g) (do
        let result ← resultNode? p c
        callThrough p enqueue c { c.bindingOf callee obj fn with
          thisSrc, args := fn.boundArgs ++ rest, spread, result, functionCid := some cid }) b₁
        fun _ _ => True := by
    intro callee thisSrc spread rest b₁ h₁ hcallee
    refine .seq (.lift (resultNode?_keepsConfined (hc.keep h₁))) fun result b₂ h₂ => ?_
    have h := trans_of (KeepsConfined p g) h₁ h₂
    refine callThrough_terminates (hc.keep h) ((hc.keep h).binding
      (h₂.expands.func hcallee) (h.expands.pag.isObject hobj) ?_)
    rintro _ ⟨⟩
    exact h.expands.hasContext hcid
  unfold invoke
  refine .bind (.lift (functionCallee_keepsConfined hc.builder hfn)) fun callee b₁ h₁ hcallee => ?_
  have hthis := (boundNodes hc.builder hfn).1.mono h₁.expands
  refine .seq (.lift (receiver_keepsConfined (hc.keep h₁) hthis).any) fun thisSrc b₂ h₂ => ?_
  have h₁₂ := trans_of (KeepsConfined p g) h₁ h₂
  cases isApply with
  | true =>
    refine .seq (.lift (spreadNode?_keepsConfined (hc.keep h₁₂))) fun spread b₃ h₃ => ?_
    exact finish callee thisSrc spread [] b₃ (trans_of (KeepsConfined p g) h₁₂ h₃)
      (h₃.expands.func (h₂.expands.func hcallee))
  | false =>
    refine .seq (.pure trivial) fun spread b₃ h₃ => ?_
    have h₁₃ := trans_of (KeepsConfined p g) h₁₂ h₃
    refine .seq (.lift (argNodes_keepsConfined (h₁₃.confined hc.builder) (hc.keep h₁₃).caller _ _))
      fun rest b₄ h₄ => ?_
    exact finish callee thisSrc spread rest b₄ (trans_of (KeepsConfined p g) h₁₃ h₄)
      (h₄.expands.func (h₃.expands.func (h₂.expands.func hcallee)))

/-- A function that is bound is an object, and what is made of it is told apart by that. -/
theorem bind_keepsConfined (hc : c.Confined p g b) (hname : c.invoke.method.name = "bind")
    {obj : NodeId} (hobj : b.pag.isObject obj = true) {fn : FunctionObject}
    (hfn : b.pag.function? obj = some fn) :
    Spec (KeepsConfined p g) (bind p c obj fn) b fun _ _ => True := by
  obtain ⟨x, hx, hkind⟩ := Option.bind_eq_some_iff.1 hfn
  obtain ⟨hmethod, -⟩ := (hc.builder.node hx).kind.function hkind
  obtain ⟨hthis, hargs⟩ := boundNodes hc.builder hfn
  unfold bind
  split
  · rename_i v hv
    refine .bind (functionCallee_keepsConfined hc.builder hfn) fun func b₁ h₁ hfunc => ?_
    refine .bind (receiver_keepsConfined (hc.keep h₁) (hthis.mono h₁.expands))
      fun boundThis b₂ h₂ hb => ?_
    have hc₂ := (hc.keep h₁).keep h₂
    refine .bind (argNodes_locates hc₂.builder hc₂.caller _ _) fun more b₃ h₃ hmore => ?_
    have hc₃ := hc₂.keep h₃
    have h := trans_of (KeepsConfined p g) (trans_of (KeepsConfined p g) h₁ h₂) h₃
    have hbinds : p.BindsAt c.stmt := ⟨c.invoke, v, hc.invoke, hname, hc.result.trans hv⟩
    have hentity : b₃.HasEntity p (.boundFunction c.stmt obj) :=
      ⟨hbinds, h.expands.pag.isObject hobj⟩
    have hbound : ∀ arg ∈ fn.boundArgs ++ more, arg.1 < b₃.pag.nodes.size := by
      intro arg harg
      rcases List.mem_append.1 harg with harg | harg
      · exact h.expands.pag.lt (hargs arg harg)
      · exact hmore arg harg
    refine .seq (nodeWithKind_keepsConfined hc₃.caller (Pag.belongs_of_plain id rfl) hentity ?_).any
      fun n b₄ h₄ => ?_
    · refine ⟨nofun, fun _ => rfl, ?_, fun _ => rfl, ?_⟩
      · rintro _ ⟨⟩
        refine ⟨hmethod, ?_⟩
        rintro _ ⟨⟩
        exact h₃.expands.func (h₂.expands.func hfunc)
      · exact inRange_function (by rintro _ ⟨⟩; exact hc.stmt_lt) (hb.mono h₃.expands) hbound
    · have hc₄ := hc₃.keep h₄
      refine .seq (valueNode_keepsConfined hc₄.builder hc₄.caller (hc₄.mentions_result hv))
        fun _ _ _ => ?_
      exact .discard addEdge_keepsConfined
  · exact .pure trivial

theorem model_terminates : model.Terminates p g where
  onCall _ _ := .pure trivial
  onObject {c role obj b} hc hobj := by
    refine .get_bind ?_
    split
    · exact .pure trivial
    · exact .pure trivial
    · rename_i x _ hx
      split
      · rename_i fn hkind
        have hfn : b.pag.function? obj = some fn := by
          unfold Pag.function?
          rw [hx]
          exact hkind
        have hcid := hc.builder.hasContext_of_isObject hobj hx
        unfold onFunction
        split
        · exact .seq (invoke_terminates hc hobj hfn hcid) fun _ _ _ => .pure trivial
        · exact .seq (invoke_terminates hc hobj hfn hcid) fun _ _ _ => .pure trivial
        · rename_i hname
          exact .seq (.lift (bind_keepsConfined hc hname hobj hfn)) fun _ _ _ => .pure trivial
        · exact .pure trivial
      · exact .pure trivial

end Library.Function

/-! ## Tasks and workers -/

namespace Library.TaskPool

theorem run_terminates (hc : c.Confined p g b) {obj : NodeId} (hobj : b.pag.isObject obj = true)
    {fn : FunctionObject} (hfn : b.pag.function? obj = some fn) :
    TryTerminates p.IsMisplaced (KeepsConfined p g) (run p enqueue c obj fn) b fun _ _ => True := by
  unfold run
  refine .bind (.lift (functionCallee_keepsConfined hc.builder hfn)) fun callee b₁ h₁ hcallee => ?_
  have hc₁ := hc.keep h₁
  refine .seq (.lift (argNodes_keepsConfined hc₁.builder hc₁.caller _ _)) fun rest b₂ h₂ => ?_
  have finish :
    ∀ result b₃, KeepsConfined p g b₂ b₃ → TryTerminates p.IsMisplaced (KeepsConfined p g)
      (callThrough p enqueue c
        { c.bindingOf callee obj fn with args := fn.boundArgs ++ rest, result }) b₃
      fun _ _ => True := by
    intro result b₃ h₃
    have h := trans_of (KeepsConfined p g) h₂ h₃
    have hobj₃ := h.expands.pag.isObject (h₁.expands.pag.isObject hobj)
    exact callThrough_terminates (hc₁.keep h)
      ((hc₁.keep h).binding (h.expands.func hcallee) hobj₃ nofun)
  dsimp only
  split
  · exact .seq (.lift (resultNode?_keepsConfined (hc₁.keep h₂))) fun result b₃ h₃ =>
      finish result b₃ h₃
  · exact finish none b₂ (refl_of (KeepsConfined p g) b₂)

theorem model_terminates : model.Terminates p g where
  onCall hc _ := .seq (.lift (watchArg_keepsConfined hc)) fun _ _ _ => .pure trivial
  onObject hc hobj := by
    unfold model
    dsimp only
    split
    · exact .pure trivial
    · split
      · exact .seq (.lift (watchArg_keepsConfined hc)) fun _ _ _ => .pure trivial
      · refine .get_bind ?_
        split
        · rename_i fn hfn
          exact .seq (run_terminates hc hobj hfn) fun _ _ _ => .pure trivial
        · exact .pure trivial

end Library.TaskPool

namespace Library.Worker

theorem channel_keepsConfined (hb : b.Confined p g) :
    Spec (KeepsConfined p g) (channel p) b fun _ _ => True :=
  nodeOf_keepsConfined hb hb.hasContext_root .worker

theorem access_keepsConfined (hc : c.Confined p g b) :
    Spec (KeepsConfined p g) (access p c) b fun _ _ => True := by
  unfold access
  split
  · refine .seq (argNode?_keepsConfined hc).any fun src b₁ h₁ => ?_
    split
    · exact .seq (channel_keepsConfined (h₁.confined hc.builder)) fun _ _ _ =>
        .discard addEdge_keepsConfined
    · exact .pure trivial
  · split
    · exact watchArg_keepsConfined hc
    · exact .pure trivial

theorem run_terminates (hc : c.Confined p g b) {obj : NodeId} (hobj : b.pag.isObject obj = true)
    {fn : FunctionObject} (hfn : b.pag.function? obj = some fn) :
    TryTerminates p.IsMisplaced (KeepsConfined p g) (run p enqueue c obj fn) b fun _ _ => True := by
  unfold run
  refine .bind (.lift (functionCallee_keepsConfined hc.builder hfn)) fun callee b₁ h₁ hcallee => ?_
  refine .seq (.lift (channel_keepsConfined (h₁.confined hc.builder))) fun message b₂ h₂ => ?_
  have h := trans_of (KeepsConfined p g) h₁ h₂
  exact callThrough_terminates (hc.keep h) ((hc.keep h).binding
    (h₂.expands.func hcallee) (h.expands.pag.isObject hobj) nofun)

theorem model_terminates : model.Terminates p g where
  onCall hc _ := .seq (.lift (access_keepsConfined hc)) fun _ _ _ => .pure trivial
  onObject hc hobj := by
    unfold model
    dsimp only
    split
    · exact .pure trivial
    · split
      · refine .get_bind ?_
        split
        · rename_i fn hfn
          exact .seq (run_terminates hc hobj hfn) fun _ _ _ => .pure trivial
        · exact .pure trivial
      · exact .seq (.lift (access_keepsConfined hc)) fun _ _ _ => .pure trivial

end Library.Worker

/-! ## Other library calls -/

namespace Library.Sdk

theorem access_keepsConfined (hc : c.Confined p g b) :
    Spec (KeepsConfined p g) (access p c) b fun _ _ => True := by
  have watch : ∀ b₁, KeepsConfined p g b b₁ →
      Spec (KeepsConfined p g) (c.positions.forM (watchArg p c)) b₁ fun _ _ => True :=
    fun b₁ h₁ => .forM_any fun _ _ _ h₂ => watchArg_keepsConfined ((hc.keep h₁).keep h₂)
  unfold access
  dsimp only
  split
  · rename_i v hv
    refine .seq (nodeOf_keepsConfined hc.builder hc.caller (e := .sdkReturn c.stmt) hc.stmt_lt)
      fun obj b₁ h₁ => ?_
    have hc₁ := hc.keep h₁
    refine .seq (valueNode_keepsConfined hc₁.builder hc₁.caller (hc₁.mentions_result hv))
      fun _ b₂ h₂ => ?_
    refine .seq (.discard addEdge_keepsConfined) fun _ b₃ h₃ => watch b₃ ?_
    exact trans_of (KeepsConfined p g) (trans_of (KeepsConfined p g) h₁ h₂) h₃
  · exact watch b (refl_of (KeepsConfined p g) b)

theorem run_terminates (hc : c.Confined p g b) {obj : NodeId} (hobj : b.pag.isObject obj = true)
    {fn : FunctionObject} (hfn : b.pag.function? obj = some fn) :
    TryTerminates p.IsMisplaced (KeepsConfined p g) (run p enqueue c obj fn) b fun _ _ => True := by
  refine .bind (.lift (functionCallee_keepsConfined hc.builder hfn)) fun callee b₁ h₁ hcallee => ?_
  exact callThrough_terminates (hc.keep h₁)
    ((hc.keep h₁).binding hcallee (h₁.expands.pag.isObject hobj) nofun)

theorem model_terminates : model.Terminates p g where
  onCall hc _ := .seq (.lift (access_keepsConfined hc)) fun _ _ _ => .pure trivial
  onObject hc hobj := by
    unfold model
    dsimp only
    split
    · exact .pure trivial
    · split
      · refine .get_bind ?_
        split
        · rename_i fn hfn
          exact .seq (run_terminates hc hobj hfn) fun _ _ _ => .pure trivial
        · exact .pure trivial
      · exact .seq (.lift (access_keepsConfined hc)) fun _ _ _ => .pure trivial

end Library.Sdk

/-! ## Containers -/

namespace Library.Container

theorem visit_terminates (hc : c.Confined p g b) {elem obj : NodeId}
    (hobj : b.pag.isObject obj = true) :
    TryTerminates p.IsMisplaced (KeepsConfined p g) (visit p enqueue c elem obj) b
      fun _ _ => True := by
  unfold visit
  refine .get_bind ?_
  split
  · rename_i fn hfn
    refine .bind (.lift (functionCallee_keepsConfined hc.builder hfn))
      fun callee b₁ h₁ hcallee => ?_
    exact callThrough_terminates (hc.keep h₁)
      ((hc.keep h₁).binding hcallee (h₁.expands.pag.isObject hobj) nofun)
  · exact .pure trivial

theorem concatArg_keepsConfined (hc : c.Confined p g b) {newElem : NodeId} {index : Nat} :
    Spec (KeepsConfined p g) (concatArg p c newElem index) b fun _ _ => True := by
  unfold concatArg
  split
  · rename_i v hv
    obtain ⟨hindex, hlocal⟩ := ModelCall.localArg?_eq_some hv
    refine .bind (valueNode_locates hc.builder hc.caller (Program.mentions_of_isLocal hlocal))
      fun n b₁ h₁ hn => ?_
    have hc₁ := hc.keep h₁
    split
    · refine .seq (slotNode_keepsConfined hc₁.caller (.concat hc.invoke hindex)
        (hasKind_reference (Or.inl rfl) (isNode?_some hn.lt) isNode?_none id)).any fun _ _ _ => ?_
      exact .discard addEdge_keepsConfined
    · exact .discard addEdge_keepsConfined
  · exact .pure trivial

theorem copyInto_keepsConfined (hc : c.Confined p g b) {elem : NodeId} {result : ValueId}
    (hresult : c.result = some result) :
    Spec (KeepsConfined p g) (copyInto p c elem result) b fun _ _ => True := by
  unfold copyInto
  refine .bind (slotNode_keepsConfined hc.caller (.container hc.stmt_lt)
    (hasKind_plain rfl rfl rfl id)) fun copy b₁ h₁ hcopy => ?_
  have hc₁ := hc.keep h₁
  refine .seq (valueNode_keepsConfined hc₁.builder hc₁.caller (hc₁.mentions_result hresult))
    fun _ b₂ h₂ => ?_
  refine .seq (.discard addEdge_keepsConfined) fun _ b₃ h₃ => ?_
  have h := trans_of (KeepsConfined p g) h₂ h₃
  have hc₃ := hc₁.keep h
  refine .seq (fieldNode_keepsConfined hc₃.builder (hcopy.mono h.expands.pag) (Or.inl rfl)
    isNode?_none)
    fun newElem b₄ h₄ => ?_
  refine .seq (.discard addEdge_keepsConfined) fun _ b₅ h₅ => ?_
  have hc₅ := (hc₃.keep h₄).keep h₅
  split
  · exact .forM_any fun _ _ _ h₆ => concatArg_keepsConfined (hc₅.keep h₆)
  · exact .pure trivial

theorem giveResult_keepsConfined (hc : c.Confined p g b) {elem : NodeId} {result : ValueId}
    (hresult : c.result = some result) :
    Spec (KeepsConfined p g) (giveResult p c elem result) b fun _ _ => True := by
  have target : ∀ b₁, KeepsConfined p g b b₁ →
      Spec (KeepsConfined p g) (valueNode p c.callerCid result) b₁ fun _ _ => True := fun b₁ h₁ =>
    valueNode_keepsConfined (h₁.confined hc.builder) (hc.keep h₁).caller
      (hc.mentions_result hresult)
  unfold giveResult
  dsimp only
  split
  · exact .seq (target b (refl_of (KeepsConfined p g) b)) fun _ _ _ =>
      .discard addEdge_keepsConfined
  · split
    · split
      · rename_i base hbase
        refine .seq (valueNode_keepsConfined hc.builder hc.caller
          (Program.mentions_of_invokeOf? hc.invoke hbase)) fun src b₁ h₁ => ?_
        exact .seq (target b₁ h₁) fun _ _ _ => .discard addEdge_keepsConfined
      · exact .pure trivial
    · split
      · exact copyInto_keepsConfined hc hresult
      · exact .pure trivial

/-- A function that is called for each element. What is shown at its node are objects. -/
theorem visitElements_terminates (hc : c.Confined p g b) {elem : NodeId} :
    TryTerminates p.IsMisplaced (KeepsConfined p g) (do
      if visitors.contains c.invoke.method.name then
        if let some n ← argNode? p c 0 then
          discard (addSite n { stmt := c.stmt, role := .arg 0 })
          ((← get).pag.ptsOf n).forM (visit p enqueue c elem)) b fun _ _ => True := by
  split
  · refine .bind (.lift (argNode?_keepsConfined hc)) fun n b₁ h₁ hn => ?_
    have hc₁ := hc.keep h₁
    split
    · rename_i n
      obtain ⟨howner, hindex⟩ := hn n rfl
      have hsite : p.HasSite { stmt := c.stmt, role := .arg 0 } := by
        refine ⟨c.invoke, hc.invoke, ?_⟩
        rintro _ ⟨⟩
        exact hindex
      refine .seq (.lift (.discard (addSite_keepsConfined howner hsite)))
        fun _ b₂ h₂ => .get_bind ?_
      have hc₂ := hc₁.keep h₂
      refine .forM_any fun o ho b₃ h₃ => visit_terminates (hc₂.keep h₃) ?_
      exact h₃.expands.pag.isObject (hc₂.builder.pag.shown ho)
    · exact .pure trivial
  · exact .pure trivial

theorem onContainer_terminates (hc : c.Confined p g b) {obj : NodeId}
    (hobj : b.pag.isObject obj = true) :
    TryTerminates p.IsMisplaced (KeepsConfined p g) (onContainer p enqueue c obj) b
      fun _ _ => True := by
  unfold onContainer
  refine .seq (.lift (fieldNode_keepsConfined hc.builder (hc.builder.isOwner_of_isObject hobj)
    (Or.inl rfl) isNode?_none)) fun elem b₁ h₁ => ?_
  have hc₁ := hc.keep h₁
  refine .seq (.forM_any fun index _ b₂ h₂ => ?_) fun _ b₂ h₂ => ?_
  · refine .seq (.lift (argNode?_keepsConfined (hc₁.keep h₂)).any) fun src b₃ _ => ?_
    split
    · exact .lift (.discard addEdge_keepsConfined)
    · exact .pure trivial
  · have hc₂ := hc₁.keep h₂
    dsimp only
    split
    · rename_i result hresult
      refine .seq (.lift (giveResult_keepsConfined hc₂ hresult)) fun _ b₃ h₃ => ?_
      exact visitElements_terminates (hc₂.keep h₃)
    · exact visitElements_terminates hc₂

theorem onCallback_terminates (hc : c.Confined p g b) {base : ValueId}
    (hbase : c.invoke.base = some base) {obj : NodeId} (hobj : b.pag.isObject obj = true) :
    TryTerminates p.IsMisplaced (KeepsConfined p g) (onCallback p enqueue c base obj) b
      fun _ _ => True := by
  unfold onCallback
  refine .seq (.lift (valueNode_keepsConfined hc.builder hc.caller
    (Program.mentions_of_invokeOf? hc.invoke hbase))) fun receiver b₁ h₁ => .get_bind ?_
  have hc₁ := hc.keep h₁
  refine .seq (.forM_any fun o ho b₂ h₂ => ?_) fun _ _ _ => .pure trivial
  have hc₂ := hc₁.keep h₂
  have ho₂ := h₂.expands.pag.isObject (hc₁.builder.pag.shown (List.mem_filter.1 ho).1)
  refine .seq (.lift (fieldNode_keepsConfined hc₂.builder (hc₂.builder.isOwner_of_isObject ho₂)
    (Or.inl rfl) isNode?_none)) fun elem b₃ h₃ => visit_terminates (hc₂.keep h₃) ?_
  exact h₃.expands.pag.isObject (h₂.expands.pag.isObject (h₁.expands.pag.isObject hobj))

theorem model_terminates : model.Terminates p g where
  onCall _ _ := .pure trivial
  onObject {c role obj b} hc hobj := by
    have receiver : TryTerminates p.IsMisplaced (KeepsConfined p g) (do
        if (← get).pag.isContainer obj then
          onContainer p enqueue c obj
          return true
        else return false : TryBuild Bool) b fun _ _ => True := by
      refine .get_bind ?_
      split
      · exact .seq (onContainer_terminates hc hobj) fun _ _ _ => .pure trivial
      · exact .pure trivial
    unfold model
    dsimp only
    split
    · exact .pure trivial
    · split
      · exact receiver
      · exact receiver
      · split
        · rename_i base hbase
          split
          · exact onCallback_terminates hc hbase hobj
          · exact .pure trivial
        · exact .pure trivial
      · exact .pure trivial

end Library.Container

/-! ## All models -/

namespace LibraryModel

theorem standard_terminates (p : Program) (g : CallGraph) : ∀ m ∈ standard, m.Terminates p g := by
  intro m hm
  simp only [standard, List.mem_cons, List.not_mem_nil, or_false] at hm
  rcases hm with rfl | rfl | rfl | rfl | rfl | rfl
  · exact Library.Storage.model_terminates
  · exact Library.Function.model_terminates
  · exact Library.TaskPool.model_terminates
  · exact Library.Worker.model_terminates
  · exact Library.Container.model_terminates
  · exact Library.Sdk.model_terminates

theorem runOnCall_terminates (hc : c.Confined p g b) {ms : List LibraryModel}
    (hms : ∀ m ∈ ms, m.Terminates p g) :
    TryTerminates p.IsMisplaced (KeepsConfined p g) (runOnCall p c ms) b fun _ _ => True := by
  induction ms generalizing b with
  | nil => exact .pure trivial
  | cons m ms ih =>
    have hrest : ∀ {b₁ : Builder}, c.Confined p g b₁ →
        TryTerminates p.IsMisplaced (KeepsConfined p g) (runOnCall p c ms) b₁ fun _ _ => True :=
      fun hc₁ => ih hc₁ fun m' hm' => hms m' (List.mem_cons_of_mem _ hm')
    unfold runOnCall
    dsimp only
    split
    · rename_i hhandles
      refine .seq ((hms m List.mem_cons_self).onCall hc hhandles) fun taken b₁ h₁ => ?_
      split
      · exact .pure trivial
      · exact hrest (hc.keep h₁)
    · exact hrest hc

theorem runOnObject_terminates (hc : c.Confined p g b) {role : SiteRole} {obj : NodeId}
    (hobj : b.pag.isObject obj = true) {ms : List LibraryModel} (hms : ∀ m ∈ ms, m.Terminates p g) :
    TryTerminates p.IsMisplaced (KeepsConfined p g) (runOnObject p enqueue c role obj ms) b
      fun _ _ => True := by
  induction ms generalizing b with
  | nil => exact .pure trivial
  | cons m ms ih =>
    unfold runOnObject
    refine .seq ((hms m List.mem_cons_self).onObject hc hobj) fun taken b₁ h₁ => ?_
    split
    · exact .pure trivial
    · exact ih (hc.keep h₁) (h₁.expands.pag.isObject hobj)
        fun m' hm' => hms m' (List.mem_cons_of_mem _ hm')

end LibraryModel

end PointsTo
