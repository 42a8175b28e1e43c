import PointsTo.Library.Standard
import PointsTo.Proofs.Builder.Functions
import PointsTo.Proofs.Repetition.Entering

/-!
# Library models are idempotent

A model asks the builder for nodes and edges and connects calls, about nodes that are there. What it
reads of the builder does not change as long as no facts are passed on: which objects are containers
or functions, and which objects have reached a node. So asking a model again changes nothing, if
entering a callee again does not (`LibraryModel.standard_idempotentAt`). What models enter waits
until they are done, and by the second time it has been laid out (`runModels_idempotentAt`).
-/

namespace PointsTo

open Builder (GrowsQuietly)
open Build

/-! ## What a call is about -/

/-- What the function has bound are nodes that are there. -/
structure FunctionObject.Placed (b : Builder) (fn : FunctionObject) : Prop where
  this : IsNode? b fn.boundThis
  args : ∀ arg ∈ fn.boundArgs, arg.1 < b.pag.nodes.size

/-- The object is there, and so is what it has bound if it is a function. -/
structure Builder.HasObject (b : Builder) (obj : NodeId) : Prop where
  node : obj < b.pag.nodes.size
  function : ∀ fn, b.pag.function? obj = some fn → fn.Placed b

/-- The call and the object are there, and so are the objects that have reached some node. -/
structure ModelCall.Placed (b : Builder) (c : ModelCall) (obj : NodeId) : Prop where
  caller : b.HasContext c.callerCid
  object : b.HasObject obj
  shown : ∀ n, ∀ o ∈ b.pag.ptsOf n, b.HasObject o

variable {s : Setting} {p : Program} {w : Queueing} {enter : Enter} {b b' : Builder} {c : ModelCall}
  {obj : NodeId} {fn : FunctionObject}

theorem FunctionObject.Placed.mono (h : fn.Placed b) (hb : b.GrowsQuietly b') : fn.Placed b' where
  this := hb.isNode? h.this
  args arg harg := hb.pag.lt (h.args arg harg)

theorem Builder.HasObject.mono (h : b.HasObject obj) (hb : b.GrowsQuietly b') :
    b'.HasObject obj where
  node := hb.pag.lt h.node
  function fn hfn :=
    (h.function fn ((Pag.function?_congr hb.pag h.node).symm.trans hfn)).mono hb

namespace ModelCall.Placed

theorem mono (h : c.Placed b obj) (hb : b.GrowsQuietly b') : c.Placed b' obj where
  caller := hb.hasContext h.caller
  object := h.object.mono hb
  shown n o ho := by
    rw [hb.factsAndCalls.pts] at ho
    exact (h.shown n o ho).mono hb

/-- Another object that has reached a node. -/
theorem withObject (h : c.Placed b obj) {o : NodeId} (ho : b.HasObject o) : c.Placed b o :=
  ⟨h.caller, ho, h.shown⟩

/-- A call of a function object, with what it passes. -/
theorem binding (h : c.Placed b obj) {callee : FuncId} {thisSrc spread result : Option NodeId}
    {args : List (NodeId × Nat)} {functionCid : Option ContextId} (this : IsNode? b thisSrc)
    (hargs : ∀ arg ∈ args, arg.1 < b.pag.nodes.size) (hspread : IsNode? b spread)
    (hresult : IsNode? b result) : CallBinding.Placed b {
      site := c.site, callerCid := c.callerCid, callee, contextObj := some obj, thisSrc, args
      spread, result, functionCid } where
  caller := h.caller
  this := this
  args := hargs
  spread := hspread
  result := hresult

end ModelCall.Placed

/-- What is bound, and more. -/
theorem FunctionObject.Placed.append (h : fn.Placed b) {more : List (NodeId × Nat)}
    (hmore : ∀ arg ∈ more, arg.1 < b.pag.nodes.size) :
    ∀ arg ∈ fn.boundArgs ++ more, arg.1 < b.pag.nodes.size := by
  intro arg harg
  rcases List.mem_append.1 harg with harg | harg
  · exact h.args arg harg
  · exact hmore arg harg

/-! ## Requests that models share -/

namespace Build

theorem functionCallee_idempotentAt : IdempotentAt (functionCallee p fn) b fun _ _ => True := by
  unfold functionCallee
  split
  · exact .pure trivial
  · exact funcOf_idempotentAt

theorem functionAt?_idempotentAt (h : b.HasObject obj) :
    IdempotentAt (functionAt? obj) b fun fn b' => ∀ f, fn = some f → f.Placed b' := by
  refine .get_bind (fun c hc => ?_) (.pure h.function)
  rw [Pag.function?_congr hc.pag h.node]

theorem callThrough_idempotentAt (henter : enter.IdempotentAt w) {binding : CallBinding}
    (hb : binding.Placed b) :
    TryIdempotentAt w (callThrough p enter c binding) b fun _ _ => True := by
  have heq : callThrough p enter c binding = (do
      (discard (addCall c.caller binding.callee c.stmt .indirect) : Build Unit)
      discard (connect p enter binding)) := rfl
  rw [heq]
  exact .seq (.lift addCall_idempotentAt) fun _ b₁ h₁ =>
    .discard (connect_idempotentAt henter (hb.mono h₁)).any

theorem watchArg_idempotentAt {index : Nat} :
    IdempotentAt (watchArg p c index) b fun _ _ => True := by
  unfold watchArg
  split
  · exact .bind valueNode_idempotentAt fun _ _ _ hn => addSite_idempotentAt hn
  · exact .pure trivial

theorem argNode?_idempotentAt {index : Nat} :
    IdempotentAt (argNode? p c index) b fun n b' => IsNode? b' n := by
  unfold argNode?
  split
  · exact .map (valueNode_idempotentAt.mono fun _ _ _ hn => isNode?_some hn)
  · exact .pure isNode?_none

theorem resultNode?_idempotentAt : IdempotentAt (resultNode? p c) b fun n b' => IsNode? b' n := by
  unfold resultNode?
  split
  · exact .map (valueNode_idempotentAt.mono fun _ _ _ hn => isNode?_some hn)
  · exact .pure isNode?_none

/-- A call of a function object that passes what is bound only. -/
theorem callBound_idempotentAt (henter : enter.IdempotentAt w)
    (hc : c.Placed b obj) (hfn : fn.Placed b) {callee : FuncId} :
    TryIdempotentAt w (callThrough p enter c (c.bindingOf callee obj fn)) b fun _ _ => True :=
  callThrough_idempotentAt henter (hc.binding hfn.this hfn.args isNode?_none isNode?_none)

end Build

/-- Asking the model about an object again changes nothing. -/
def LibraryModel.IdempotentAt (p : Program) (m : LibraryModel) : Prop :=
  ∀ {w enter c role obj b}, enter.IdempotentAt w → c.Placed b obj →
    TryIdempotentAt w (m.onObject p enter c role obj) b fun _ _ => True

/-! ## Stores with text keys -/

namespace Library.Storage

theorem read_idempotentAt {n : NodeId} (hn : n < b.pag.nodes.size) : IdempotentAt (do
      if readers.contains c.callee.name then
        if let some dst ← resultNode? p c then discard (addEdge .copy n dst)
      return true) b fun _ _ => True := by
  dsimp only
  split
  · refine .bind resultNode?_idempotentAt fun dst b₁ h₁ hdst => ?_
    split
    · exact .seq (addEdge_idempotentAt (h₁.pag.lt hn) (hdst _ rfl)) fun _ _ _ => .pure trivial
    · exact .pure trivial
  · exact .pure trivial

theorem access_idempotentAt {store : String} :
    IdempotentAt (access p c store) b fun _ _ => True := by
  unfold access
  dsimp only
  split
  · exact .pure trivial
  · split
    · refine .bind (nodeOf_idempotentAt (slot_isPlain _ _)) fun n b₁ h₁ hn => ?_
      split
      · refine .bind argNode?_idempotentAt fun src b₂ h₂ hsrc => ?_
        have hn₂ := h₂.pag.lt hn
        split
        · exact .seq (addEdge_idempotentAt (hsrc _ rfl) hn₂) fun _ b₃ h₃ =>
            read_idempotentAt (h₃.pag.lt hn₂)
        · exact read_idempotentAt hn₂
      · exact read_idempotentAt hn
    · exact .pure trivial

theorem model_idempotentAt : model.IdempotentAt p := by
  intro w enter c role obj b _ hc
  refine .get_bind (fun c hb => ?_) ?_
  · have hsame : storeOf? c.pag obj = storeOf? b.pag obj := by
      unfold storeOf?
      rw [hb.pag.kind_eq hc.object.node]
    rw [hsame]
  · split
    · exact .pure trivial
    · exact .pure trivial
    · exact .lift access_idempotentAt

end Library.Storage

/-! ## Function objects -/

namespace Library.Function

theorem receiver_idempotentAt (hfn : fn.Placed b) :
    IdempotentAt (receiver p c fn) b fun n b' => IsNode? b' n := by
  unfold receiver
  split
  · rename_i n hn
    exact .pure (isNode?_some (hfn.this n hn))
  · exact argNode?_idempotentAt

theorem spreadNode?_idempotentAt : IdempotentAt (spreadNode? p c) b fun n b' => IsNode? b' n := by
  unfold spreadNode?
  refine .bind argNode?_idempotentAt fun base b₁ h₁ _ => ?_
  split
  · exact .map (nodeWithKind_idempotentAt.mono fun _ _ _ hn => isNode?_some hn)
  · exact .pure isNode?_none

theorem invoke_idempotentAt (henter : enter.IdempotentAt w)
    (hc : c.Placed b obj) (hfn : fn.Placed b) {cid : ContextId} {isApply : Bool} :
    TryIdempotentAt w (invoke p enter c obj fn cid isApply) b fun _ _ => True := by
  have finish : ∀ callee thisSrc spread rest b₁, b.GrowsQuietly b₁ → IsNode? b₁ thisSrc →
      IsNode? b₁ spread → (∀ arg ∈ rest, arg.1 < b₁.pag.nodes.size) →
      TryIdempotentAt w (do
        let result ← resultNode? p c
        callThrough p enter c { c.bindingOf callee obj fn with
          thisSrc, args := fn.boundArgs ++ rest, spread, result, functionCid := some cid }) b₁
        fun _ _ => True := by
    intro callee thisSrc spread rest b₁ h₁ hthis hspread hrest
    refine .bind (.lift resultNode?_idempotentAt) fun result b₂ h₂ hresult => ?_
    have h := trans_of GrowsQuietly h₁ h₂
    refine callThrough_idempotentAt henter ((hc.mono h).binding (h₂.isNode? hthis) ?_
      (h₂.isNode? hspread) hresult)
    exact (hfn.mono h).append fun arg harg => h₂.pag.lt (hrest arg harg)
  unfold invoke
  refine .seq (.lift functionCallee_idempotentAt) fun callee b₁ h₁ => ?_
  refine .bind (.lift (receiver_idempotentAt (hfn.mono h₁))) fun thisSrc b₂ h₂ hthis => ?_
  have h₁₂ := trans_of GrowsQuietly h₁ h₂
  cases isApply with
  | true =>
    refine .bind (.lift spreadNode?_idempotentAt) fun spread b₃ h₃ hspread => ?_
    exact finish callee thisSrc spread [] b₃ (trans_of GrowsQuietly h₁₂ h₃)
      (h₃.isNode? hthis) hspread fun _ harg => absurd harg List.not_mem_nil
  | false =>
    refine .bind (.pure isNode?_none) fun spread b₃ h₃ (hspread : IsNode? b₃ spread) => ?_
    refine .bind (.lift (argNodes_idempotentAt _ _)) fun rest b₄ h₄ hrest => ?_
    exact finish callee thisSrc spread rest b₄
      (trans_of GrowsQuietly h₁₂ (trans_of GrowsQuietly h₃ h₄))
      (h₄.isNode? (h₃.isNode? hthis)) (h₄.isNode? hspread) hrest

/-- What `bind` makes is told apart by the call and by the function bound, so it is made once. -/
theorem bind_idempotentAt (hfn : fn.Placed b) :
    IdempotentAt (bind p c obj fn) b fun _ _ => True := by
  unfold bind
  split
  · refine .seq functionCallee_idempotentAt fun func b₁ h₁ => ?_
    refine .seq (receiver_idempotentAt (hfn.mono h₁)).any fun boundThis b₂ _ => ?_
    refine .seq (argNodes_idempotentAt _ _).any fun more b₃ _ => ?_
    refine .bind nodeWithKind_idempotentAt fun n b₄ _ hn => ?_
    exact .bind valueNode_idempotentAt fun dst b₅ h₅ hdst =>
      addEdge_idempotentAt (h₅.pag.lt hn) hdst
  · exact .pure trivial

theorem model_idempotentAt : model.IdempotentAt p := by
  intro w enter c role obj b henter hc
  obtain ⟨x, hx⟩ := Pag.exists_node? hc.object.node
  refine .get_bind (fun c hb => ?_) ?_
  · obtain ⟨x', hx', hgrow⟩ := hb.pag.node hx
    rw [hx, hx']
    cases role with
    | arg index => rfl
    | receiver | unknown => simp only [hgrow.kind, hgrow.cid]
  · rw [hx]
    split
    · exact .pure trivial
    · exact .pure trivial
    · rename_i x' _ heq
      cases heq
      split
      · rename_i fn hkind
        have hfn : fn.Placed b := by
          refine hc.object.function fn ?_
          unfold Pag.function?
          rw [hx]
          exact hkind
        unfold onFunction
        split
        · exact .seq (invoke_idempotentAt henter hc hfn) fun _ _ _ => .pure trivial
        · exact .seq (invoke_idempotentAt henter hc hfn) fun _ _ _ => .pure trivial
        · exact .seq (.lift (bind_idempotentAt hfn)) fun _ _ _ => .pure trivial
        · exact .pure trivial
      · exact .pure trivial

end Library.Function

/-! ## Tasks and workers -/

namespace Library.TaskPool

theorem run_idempotentAt (henter : enter.IdempotentAt w) (hc : c.Placed b obj) (hfn : fn.Placed b) :
    TryIdempotentAt w (run p enter c obj fn) b fun _ _ => True := by
  unfold run
  refine .seq (.lift functionCallee_idempotentAt) fun callee b₁ h₁ => ?_
  refine .bind (.lift (argNodes_idempotentAt _ _)) fun rest b₂ h₂ hrest => ?_
  have h₁₂ := trans_of GrowsQuietly h₁ h₂
  have finish :
    ∀ result b₃, b₂.GrowsQuietly b₃ → IsNode? b₃ result → TryIdempotentAt w (callThrough p enter c
      { c.bindingOf callee obj fn with args := fn.boundArgs ++ rest, result }) b₃
      fun _ _ => True := by
    intro result b₃ h₃ hresult
    have h := trans_of GrowsQuietly h₁₂ h₃
    have hfn₃ := hfn.mono h
    exact callThrough_idempotentAt henter ((hc.mono h).binding hfn₃.this
      (hfn₃.append fun arg harg => h₃.pag.lt (hrest arg harg)) isNode?_none hresult)
  dsimp only
  split
  · exact .bind (.lift resultNode?_idempotentAt) finish
  · exact finish none b₂ (refl_of GrowsQuietly b₂) isNode?_none

theorem model_idempotentAt : model.IdempotentAt p := by
  intro w enter c role obj b henter hc
  unfold model
  dsimp only
  split
  · exact .pure trivial
  · split
    · exact .seq (.lift watchArg_idempotentAt) fun _ _ _ => .pure trivial
    · refine .bind (.lift (functionAt?_idempotentAt hc.object)) fun fn b₁ h₁ hfn => ?_
      split
      · exact .seq (run_idempotentAt henter (hc.mono h₁) (hfn _ rfl)) fun _ _ _ => .pure trivial
      · exact .pure trivial

end Library.TaskPool

namespace Library.Worker

theorem channel_idempotentAt : IdempotentAt (channel p) b fun n b' => n < b'.pag.nodes.size :=
  nodeOf_idempotentAt (show "worker" ≠ "container" by decide)

theorem access_idempotentAt : IdempotentAt (access p c) b fun _ _ => True := by
  unfold access
  split
  · refine .bind argNode?_idempotentAt fun src b₁ h₁ hsrc => ?_
    split
    · exact .bind channel_idempotentAt fun _ b₂ h₂ hn =>
        addEdge_idempotentAt (h₂.pag.lt (hsrc _ rfl)) hn
    · exact .pure trivial
  · split
    · exact watchArg_idempotentAt
    · exact .pure trivial

theorem run_idempotentAt (henter : enter.IdempotentAt w) (hc : c.Placed b obj) (hfn : fn.Placed b) :
    TryIdempotentAt w (run p enter c obj fn) b fun _ _ => True := by
  unfold run
  refine .seq (.lift functionCallee_idempotentAt) fun callee b₁ h₁ => ?_
  refine .bind (.lift channel_idempotentAt) fun message b₂ h₂ hmessage => ?_
  have h := trans_of GrowsQuietly h₁ h₂
  have hfn₂ := hfn.mono h
  refine callThrough_idempotentAt henter ((hc.mono h).binding hfn₂.this (hfn₂.append ?_)
    isNode?_none isNode?_none)
  simpa using hmessage

theorem model_idempotentAt : model.IdempotentAt p := by
  intro w enter c role obj b henter hc
  unfold model
  dsimp only
  split
  · exact .pure trivial
  · split
    · refine .bind (.lift (functionAt?_idempotentAt hc.object)) fun fn b₁ h₁ hfn => ?_
      split
      · exact .seq (run_idempotentAt henter (hc.mono h₁) (hfn _ rfl)) fun _ _ _ => .pure trivial
      · exact .pure trivial
    · exact .seq (.lift access_idempotentAt) fun _ _ _ => .pure trivial

end Library.Worker

/-! ## Other library calls -/

namespace Library.Sdk

theorem access_idempotentAt : IdempotentAt (access p c) b fun _ _ => True := by
  have watch : ∀ b₁, IdempotentAt (c.positions.forM (watchArg p c)) b₁ fun _ _ => True :=
    fun _ => .forM fun _ _ _ _ => watchArg_idempotentAt
  unfold access
  dsimp only
  split
  · refine .bind (nodeOf_idempotentAt trivial) fun obj b₁ _ hobj => ?_
    refine .bind valueNode_idempotentAt fun dst b₂ h₂ hdst => ?_
    exact .seq (addEdge_idempotentAt (h₂.pag.lt hobj) hdst) fun _ b₃ _ => watch b₃
  · exact watch b

theorem run_idempotentAt (henter : enter.IdempotentAt w) (hc : c.Placed b obj) (hfn : fn.Placed b) :
    TryIdempotentAt w (run p enter c obj fn) b fun _ _ => True :=
  .seq (.lift functionCallee_idempotentAt) fun _ _ h₁ =>
    callBound_idempotentAt henter (hc.mono h₁) (hfn.mono h₁)

theorem model_idempotentAt : model.IdempotentAt p := by
  intro w enter c role obj b henter hc
  unfold model
  dsimp only
  split
  · exact .pure trivial
  · split
    · refine .bind (.lift (functionAt?_idempotentAt hc.object)) fun fn b₁ h₁ hfn => ?_
      split
      · exact .seq (run_idempotentAt henter (hc.mono h₁) (hfn _ rfl)) fun _ _ _ => .pure trivial
      · exact .pure trivial
    · exact .seq (.lift access_idempotentAt) fun _ _ _ => .pure trivial

end Library.Sdk

/-! ## Containers -/

namespace Library.Container

theorem visit_idempotentAt (henter : enter.IdempotentAt w) (hc : c.Placed b obj) {elem : NodeId}
    (helem : elem < b.pag.nodes.size) :
    TryIdempotentAt w (visit p enter c elem obj) b fun _ _ => True := by
  unfold visit
  refine .bind (.lift (functionAt?_idempotentAt hc.object)) fun fn b₁ h₁ hfn => ?_
  split
  · refine .seq (.lift functionCallee_idempotentAt) fun callee b₂ h₂ => ?_
    have h := trans_of GrowsQuietly h₁ h₂
    have hfn₂ := (hfn _ rfl).mono h₂
    refine callThrough_idempotentAt henter ((hc.mono h).binding hfn₂.this (hfn₂.append ?_)
      isNode?_none isNode?_none)
    simpa using h.pag.lt helem
  · exact .pure trivial

theorem concatArg_idempotentAt {newElem : NodeId} {index : Nat} (hn : newElem < b.pag.nodes.size) :
    IdempotentAt (concatArg p c newElem index) b fun _ _ => True := by
  unfold concatArg
  split
  · refine .bind valueNode_idempotentAt fun n b₁ h₁ hsrc => ?_
    split
    · refine .bind nodeWithKind_idempotentAt fun spread b₂ h₂ hspread =>
        addEdge_idempotentAt hspread ?_
      exact h₂.pag.lt (h₁.pag.lt hn)
    · exact addEdge_idempotentAt hsrc (h₁.pag.lt hn)
  · exact .pure trivial

theorem copyInto_idempotentAt {elem : NodeId} {result : ValueId} (helem : elem < b.pag.nodes.size) :
    IdempotentAt (copyInto p c elem result) b fun _ _ => True := by
  unfold copyInto
  refine .bind nodeWithKind_idempotentAt fun copy b₁ h₁ hcopy => ?_
  refine .bind valueNode_idempotentAt fun dst b₂ h₂ hdst => ?_
  refine .seq (addEdge_idempotentAt (h₂.pag.lt hcopy) hdst) fun _ b₃ h₃ => ?_
  refine .bind (fieldNode_idempotentAt (h₃.pag.lt (h₂.pag.lt hcopy))) fun newElem b₄ h₄ hnew => ?_
  have helem₄ := h₄.pag.lt (h₃.pag.lt (h₂.pag.lt (h₁.pag.lt helem)))
  refine .seq (addEdge_idempotentAt helem₄ hnew) fun _ b₅ h₅ => ?_
  split
  · exact .forM fun _ _ _ h₆ => concatArg_idempotentAt (h₆.pag.lt (h₅.pag.lt hnew))
  · exact .pure trivial

theorem giveResult_idempotentAt {elem : NodeId} {result : ValueId}
    (helem : elem < b.pag.nodes.size) :
    IdempotentAt (giveResult p c elem result) b fun _ _ => True := by
  unfold giveResult
  dsimp only
  split
  · exact .bind valueNode_idempotentAt fun dst b₁ h₁ hdst =>
      addEdge_idempotentAt (h₁.pag.lt helem) hdst
  · split
    · split
      · refine .bind valueNode_idempotentAt fun src b₁ _ hsrc => ?_
        exact .bind valueNode_idempotentAt fun dst b₂ h₂ hdst =>
          addEdge_idempotentAt (h₂.pag.lt hsrc) hdst
      · exact .pure trivial
    · split
      · exact copyInto_idempotentAt helem
      · exact .pure trivial

/-- The functions that are called are those that have reached the argument. -/
theorem visitElements_idempotentAt (henter : enter.IdempotentAt w)
    (hc : c.Placed b obj) {elem : NodeId} (helem : elem < b.pag.nodes.size) : TryIdempotentAt w (do
      if visitors.contains c.invoke.method.name then
        if let some n ← argNode? p c 0 then
          discard (addSite n { stmt := c.stmt, role := .arg 0 })
          ((← get).pag.ptsOf n).forM (visit p enter c elem)) b fun _ _ => True := by
  split
  · refine .bind (.lift argNode?_idempotentAt) fun n b₁ h₁ hn => ?_
    split
    · rename_i n
      refine .seq (.lift (addSite_idempotentAt (hn n rfl))) fun _ b₂ h₂ => ?_
      refine .get_bind (fun c hb => by rw [hb.factsAndCalls.pts]) (.forM fun o ho b₃ h₃ => ?_)
      have h := trans_of GrowsQuietly h₁ h₂
      have ho₂ := (hc.mono h).shown n o ho
      refine visit_idempotentAt henter (((hc.mono h).withObject ho₂).mono h₃) ?_
      exact h₃.pag.lt (h.pag.lt helem)
    · exact .pure trivial
  · exact .pure trivial

theorem onContainer_idempotentAt (henter : enter.IdempotentAt w) (hc : c.Placed b obj) :
    TryIdempotentAt w (onContainer p enter c obj) b fun _ _ => True := by
  unfold onContainer
  refine .bind (.lift (fieldNode_idempotentAt hc.object.node)) fun elem b₁ h₁ helem => ?_
  refine .seq (.forM fun index _ b₂ h₂ => ?_) fun _ b₂ h₂ => ?_
  · refine .bind (.lift argNode?_idempotentAt) fun src b₃ h₃ hsrc => ?_
    split
    · exact .lift (addEdge_idempotentAt (hsrc _ rfl) (h₃.pag.lt (h₂.pag.lt helem)))
    · exact .pure trivial
  · have hc₂ := (hc.mono h₁).mono h₂
    have helem₂ := h₂.pag.lt helem
    dsimp only
    split
    · refine .seq (.lift (giveResult_idempotentAt helem₂)) fun _ b₃ h₃ => ?_
      exact visitElements_idempotentAt henter (hc₂.mono h₃) (h₃.pag.lt helem₂)
    · exact visitElements_idempotentAt henter hc₂ helem₂

/-- The containers are those that have reached the receiver. -/
theorem onCallback_idempotentAt (henter : enter.IdempotentAt w)
    (hc : c.Placed b obj) {base : ValueId} :
    TryIdempotentAt w (onCallback p enter c base obj) b fun _ _ => True := by
  unfold onCallback
  refine .seq (.lift valueNode_idempotentAt.any) fun receiver b₁ h₁ => ?_
  have hc₁ := hc.mono h₁
  refine .get_bind (fun c hb => ?_) (.seq (.forM fun o ho b₂ h₂ => ?_) fun _ _ _ => .pure trivial)
  · have hsame : (c.pag.ptsOf receiver).filter c.pag.isContainer =
        (b₁.pag.ptsOf receiver).filter b₁.pag.isContainer := by
      rw [hb.factsAndCalls.pts]
      exact List.filter_congr fun o ho => hb.pag.isContainer (hc₁.shown receiver o ho).node
    dsimp only
    rw [hsame]
  · have ho₂ := (hc₁.shown receiver o (List.mem_filter.1 ho).1).mono h₂
    refine .bind (.lift (fieldNode_idempotentAt ho₂.node)) fun elem b₃ h₃ helem => ?_
    exact visit_idempotentAt henter ((hc₁.mono h₂).mono h₃) helem

theorem model_idempotentAt : model.IdempotentAt p := by
  intro w enter c role obj b henter hc
  have receiver : TryIdempotentAt w (do
      if (← get).pag.isContainer obj then
        onContainer p enter c obj
        return true
      else return false : TryBuild Bool) b fun _ _ => True := by
    refine .get_bind (fun c hb => by rw [hb.pag.isContainer hc.object.node]) ?_
    split
    · exact .seq (onContainer_idempotentAt henter hc) fun _ _ _ => .pure trivial
    · exact .pure trivial
  unfold model
  dsimp only
  split
  · exact .pure trivial
  · split
    · exact receiver
    · exact receiver
    · split
      · split
        · exact onCallback_idempotentAt henter hc
        · exact .pure trivial
      · exact .pure trivial
    · exact .pure trivial

end Library.Container

/-! ## All models -/

namespace LibraryModel

theorem standard_idempotentAt (p : Program) : ∀ m ∈ standard, m.IdempotentAt p := by
  intro m hm
  simp only [standard, List.mem_cons, List.not_mem_nil, or_false] at hm
  rcases hm with rfl | rfl | rfl | rfl | rfl | rfl
  · exact Library.Storage.model_idempotentAt
  · exact Library.Function.model_idempotentAt
  · exact Library.TaskPool.model_idempotentAt
  · exact Library.Worker.model_idempotentAt
  · exact Library.Container.model_idempotentAt
  · exact Library.Sdk.model_idempotentAt

theorem runOnObject_idempotentAt {role : SiteRole} {ms : List LibraryModel}
    (hms : ∀ m ∈ ms, m.IdempotentAt p) (henter : enter.IdempotentAt w) (hc : c.Placed b obj) :
    TryIdempotentAt w (runOnObject p enter c role obj ms) b fun _ _ => True := by
  induction ms generalizing b with
  | nil => exact .pure trivial
  | cons m ms ih =>
    unfold runOnObject
    refine .seq (hms m List.mem_cons_self henter hc) fun taken b₁ h₁ => ?_
    split
    · exact .pure trivial
    · exact ih (fun m' hm' => hms m' (List.mem_cons_of_mem _ hm')) (hc.mono h₁)

end LibraryModel

namespace Build

/-- What the models enter has been laid out by the second time, so it is dropped from the queue. -/
theorem runModels_idempotentAt (hs : s.IsStandard) {role : SiteRole} (hc : c.Placed b obj) :
    TryIdempotentAt .draining (runModels s c role obj) b fun _ _ => True := by
  have hms : ∀ m ∈ s.models, m.IdempotentAt s.program := fun m hm =>
    LibraryModel.standard_idempotentAt s.program m (hs ▸ hm)
  have hmodels : TryIdempotentAt .asking
      (LibraryModel.runOnObject s.program enqueue c role obj s.models) b fun _ _ => True :=
    LibraryModel.runOnObject_idempotentAt hms (fun _ _ _ => enqueue_idempotentAt) hc
  intro handled b' hrun
  obtain ⟨_, b₁, hfirst, hrest⟩ := TryGuarantees.of_bind hrun
  obtain ⟨_, b₂, hdrain, hlast⟩ := TryGuarantees.of_bind hrest
  cases hlast
  obtain ⟨h₁, ⟨asked, hasked⟩, -, hagain⟩ := hmodels hfirst
  have h₂ := drain_drainedWithin hs.keepsLinks hdrain
  refine ⟨trans_of GrowsQuietly h₁ h₂.growsQuietly, Or.inr h₂.empty, trivial, ?_⟩
  rintro d _ hd ⟨rfl, hpending⟩
  rw [h₂.empty, or_self] at hpending
  have hrun₁ := hagain d asked (trans_of GrowsQuietly h₂.growsQuietly hd)
    ⟨asked, hasked.symm, by rw [hpending, List.nil_append]⟩
  have hrun₂ : (drain s s.fuel).run.run { d with pending := asked } =
      (.ok (), { d with pending := [] }) := by
    refine run_drain_of_built ((?_ : asked.length ≤ b₁.pending.length).trans h₂.fuel) fun hf => ?_
    · rw [← hasked, List.length_append]
      exact Nat.le_add_left _ _
    · exact hd.built (h₂.built (hasked ▸ List.mem_append_right _ hf))
  unfold runModels
  rw [run_bind_ok (congrArg Prod.fst hrun₁), hrun₁, run_bind_ok (congrArg Prod.fst hrun₂), hrun₂,
    hpending]
  rfl

end Build

end PointsTo
