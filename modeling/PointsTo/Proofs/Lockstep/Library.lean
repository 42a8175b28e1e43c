import PointsTo.Library.Standard
import PointsTo.Proofs.Lockstep.Builder

/-!
# Library models in lockstep

What a model does is put together from requests to the builder, so it does the same to builders
alike, as long as the two ways of entering callees match.
-/

namespace PointsTo

open Builder (Alike)
open Build

variable {cmp : Comparison} {p : Program} {enter enter' : Enter}

/-- Both chances that a model gets are taken alike. -/
structure LibraryModel.Respects (cmp : Comparison) (p : Program) (m : LibraryModel) : Prop where
  onCall : ∀ c, TryRespects cmp.strict (Alike cmp) (m.onCall p c) (m.onCall p c)
  onObject : ∀ {enter enter' c role obj}, enter.Respects cmp enter' →
    TryRespects cmp.strict (Alike cmp) (m.onObject p enter c role obj)
      (m.onObject p enter' c role obj)

/-! ## Stores with text keys -/

namespace Library.Storage

theorem read_respects {c : ModelCall} {n : NodeId} : Respects (Alike cmp) (do
    if readers.contains c.callee.name then
      if let some dst ← resultNode? p c then discard (addEdge .copy n dst)
    return true) := by
  dsimp only
  split
  · refine .bind resultNode?_respects fun dst => ?_
    split
    · exact .bind (.discard addEdge_respects) fun _ => .pure
    · exact .pure
  · exact .pure

theorem access_respects {c : ModelCall} {store : String} :
    Respects (Alike cmp) (access p c store) := by
  unfold access
  dsimp only
  split
  · exact .pure
  · split
    · refine .bind nodeOf_respects fun n => ?_
      split
      · refine .bind argNode?_respects fun src => ?_
        split
        · exact .bind (.discard addEdge_respects) fun _ => read_respects
        · exact read_respects
      · exact read_respects
    · exact .pure

theorem model_respects : model.Respects cmp p where
  onCall _ := .lift access_respects
  onObject {_ _ c role obj} _ := by
    refine .get_bind fun b b' h => ?_
    have hstore : storeOf? b'.pag obj = storeOf? b.pag obj := by
      unfold storeOf?
      rw [h.pag.kind]
    rw [hstore]
    refine TryRespects.apply ?_ h
    split
    · exact .pure
    · exact .pure
    · exact .lift access_respects

end Library.Storage

/-! ## Function objects -/

namespace Library.Function

theorem receiver_respects {c : ModelCall} {fn : FunctionObject} :
    Respects (Alike cmp) (receiver p c fn) := by
  unfold receiver
  split
  · exact .pure
  · exact argNode?_respects

theorem spreadNode?_respects {c : ModelCall} : Respects (Alike cmp) (spreadNode? p c) := by
  refine .bind argNode?_respects fun base => ?_
  split
  · exact .map nodeWithKind_respects
  · exact .pure

theorem invoke_respects (henter : enter.Respects cmp enter') {c : ModelCall} {obj : NodeId}
    {fn : FunctionObject} {cid : ContextId} {isApply : Bool} : TryRespects cmp.strict (Alike cmp)
      (invoke p enter c obj fn cid isApply) (invoke p enter' c obj fn cid isApply) := by
  have finish : ∀ callee thisSrc spread rest, TryRespects cmp.strict (Alike cmp) (do
      let result ← resultNode? p c
      callThrough p enter c { c.bindingOf callee obj fn with
        thisSrc, args := fn.boundArgs ++ rest, spread, result, functionCid := some cid } :
          TryBuild Unit) (do
      let result ← resultNode? p c
      callThrough p enter' c { c.bindingOf callee obj fn with
        thisSrc, args := fn.boundArgs ++ rest, spread, result, functionCid := some cid }) :=
    fun _ _ _ _ => .bind (.lift resultNode?_respects) fun _ => callThrough_respects henter
  refine .bind (.lift functionCallee_respects) fun callee => ?_
  refine .bind (.lift receiver_respects) fun thisSrc => ?_
  cases isApply with
  | true => exact .bind (.lift spreadNode?_respects) fun spread => finish callee thisSrc spread []
  | false =>
    refine .bind .pure fun spread => ?_
    exact .bind (.lift (argNodes_respects _ _)) fun rest => finish callee thisSrc spread rest

theorem bind_respects {c : ModelCall} {obj : NodeId} {fn : FunctionObject} :
    Respects (Alike cmp) (bind p c obj fn) := by
  unfold bind
  split
  · refine .bind functionCallee_respects fun func => .bind receiver_respects fun boundThis => ?_
    refine .bind (argNodes_respects _ _) fun more => .bind nodeWithKind_respects fun n => ?_
    exact .bind valueNode_respects fun _ => .discard addEdge_respects
  · exact .pure

theorem onFunction_respects (henter : enter.Respects cmp enter') {c : ModelCall} {obj : NodeId}
    {fn : FunctionObject} {cid : ContextId} : TryRespects cmp.strict (Alike cmp)
      (onFunction p enter c obj fn cid) (onFunction p enter' c obj fn cid) := by
  unfold onFunction
  split
  · exact .bind (invoke_respects henter) fun _ => .pure
  · exact .bind (invoke_respects henter) fun _ => .pure
  · exact .bind (.lift bind_respects) fun _ => .pure
  · exact .pure

theorem model_respects : model.Respects cmp p where
  onCall _ := .pure
  onObject {enter enter' c role obj} henter := by
    refine .get_bind fun b b' h => ?_
    refine TryRespects.apply ?_ h
    rcases h.pag.cases obj with ⟨x, y, hx, hy, hxy⟩ | ⟨hx, hy⟩
    · rw [hx, hy]
      cases role with
      | arg index => exact .pure
      | receiver | unknown =>
        dsimp only
        rw [hxy.kind, hxy.cid]
        split
        · exact onFunction_respects henter
        · exact .pure
    · rw [hx, hy]
      cases role <;> exact .pure

end Library.Function

/-! ## Tasks and workers -/

namespace Library.TaskPool

theorem run_respects (henter : enter.Respects cmp enter') {c : ModelCall} {obj : NodeId}
    {fn : FunctionObject} :
    TryRespects cmp.strict (Alike cmp) (run p enter c obj fn) (run p enter' c obj fn) := by
  refine .bind (.lift functionCallee_respects) fun callee => ?_
  refine .bind (.lift (argNodes_respects _ _)) fun rest => ?_
  dsimp only
  split
  · exact .bind (.lift resultNode?_respects) fun result => callThrough_respects henter
  · exact callThrough_respects henter

theorem model_respects : model.Respects cmp p where
  onCall _ := .bind (.lift watchArg_respects) fun _ => .pure
  onObject henter := by
    unfold model
    dsimp only
    split
    · exact .pure
    · split
      · exact .bind (.lift watchArg_respects) fun _ => .pure
      · refine .bind (.lift functionAt?_respects) fun fn => ?_
        cases fn with
        | some fn => exact .bind (run_respects henter) fun _ => .pure
        | none => exact .pure

end Library.TaskPool

namespace Library.Worker

theorem access_respects {c : ModelCall} : Respects (Alike cmp) (access p c) := by
  unfold access
  split
  · refine .bind argNode?_respects fun src => ?_
    split
    · exact .bind nodeOf_respects fun _ => .discard addEdge_respects
    · exact .pure
  · split
    · exact watchArg_respects
    · exact .pure

theorem run_respects (henter : enter.Respects cmp enter') {c : ModelCall} {obj : NodeId}
    {fn : FunctionObject} :
    TryRespects cmp.strict (Alike cmp) (run p enter c obj fn) (run p enter' c obj fn) :=
  .bind (.lift functionCallee_respects) fun _ => .bind (.lift nodeOf_respects) fun _ =>
    callThrough_respects henter

theorem model_respects : model.Respects cmp p where
  onCall _ := .bind (.lift access_respects) fun _ => .pure
  onObject {enter enter' c role obj} henter := by
    unfold model
    dsimp only
    split
    · exact .pure
    · cases role with
      | arg index =>
        refine .bind (.lift functionAt?_respects) fun fn => ?_
        cases fn with
        | some fn => exact .bind (run_respects henter) fun _ => .pure
        | none => exact .pure
      | receiver | unknown => exact .bind (.lift access_respects) fun _ => .pure

end Library.Worker

/-! ## Other library calls -/

namespace Library.Sdk

theorem access_respects {c : ModelCall} : Respects (Alike cmp) (access p c) := by
  have watch : Respects (Alike cmp) (c.positions.forM (watchArg p c)) :=
    .forM fun _ _ => watchArg_respects
  unfold access
  dsimp only
  split
  · refine .bind nodeOf_respects fun obj => .bind valueNode_respects fun dst => ?_
    exact .bind (.discard addEdge_respects) fun _ => watch
  · exact watch

theorem run_respects (henter : enter.Respects cmp enter') {c : ModelCall} {obj : NodeId}
    {fn : FunctionObject} :
    TryRespects cmp.strict (Alike cmp) (run p enter c obj fn) (run p enter' c obj fn) :=
  .bind (.lift functionCallee_respects) fun _ => callThrough_respects henter

theorem model_respects : model.Respects cmp p where
  onCall _ := .bind (.lift access_respects) fun _ => .pure
  onObject {enter enter' c role obj} henter := by
    unfold model
    dsimp only
    split
    · exact .pure
    · cases role with
      | arg index =>
        refine .bind (.lift functionAt?_respects) fun fn => ?_
        cases fn with
        | some fn => exact .bind (run_respects henter) fun _ => .pure
        | none => exact .pure
      | receiver | unknown => exact .bind (.lift access_respects) fun _ => .pure

end Library.Sdk

/-! ## Containers -/

namespace Library.Container

theorem visit_respects (henter : enter.Respects cmp enter') {c : ModelCall}
    {elem obj : NodeId} :
    TryRespects cmp.strict (Alike cmp) (visit p enter c elem obj) (visit p enter' c elem obj) := by
  refine .bind (.lift functionAt?_respects) fun fn => ?_
  cases fn with
  | some fn =>
    exact .bind (.lift functionCallee_respects) fun callee => callThrough_respects henter
  | none => exact .pure

theorem concatArg_respects {c : ModelCall} {newElem : NodeId} {index : Nat} :
    Respects (Alike cmp) (concatArg p c newElem index) := by
  unfold concatArg
  split
  · refine .bind valueNode_respects fun n => ?_
    split
    · exact .bind nodeWithKind_respects fun _ => .discard addEdge_respects
    · exact .discard addEdge_respects
  · exact .pure

theorem copyInto_respects {c : ModelCall} {elem : NodeId} {result : ValueId} :
    Respects (Alike cmp) (copyInto p c elem result) := by
  refine .bind nodeWithKind_respects fun copy => .bind valueNode_respects fun dst => ?_
  refine .bind (.discard addEdge_respects) fun _ => .bind fieldNode_respects fun newElem => ?_
  refine .bind (.discard addEdge_respects) fun _ => ?_
  split
  · exact .forM fun _ _ => concatArg_respects
  · exact .pure

theorem giveResult_respects {c : ModelCall} {elem : NodeId} {result : ValueId} :
    Respects (Alike cmp) (giveResult p c elem result) := by
  unfold giveResult
  dsimp only
  split
  · exact .bind valueNode_respects fun _ => .discard addEdge_respects
  · split
    · split
      · refine .bind valueNode_respects fun src => ?_
        exact .bind valueNode_respects fun _ => .discard addEdge_respects
      · exact .pure
    · split
      · exact copyInto_respects
      · exact .pure

/-- A function that is called for each element. -/
theorem visitElements_respects (henter : enter.Respects cmp enter') {c : ModelCall}
    {elem : NodeId} {n : NodeId} : TryRespects cmp.strict (Alike cmp)
      (do ((← get).pag.ptsOf n).forM (visit p enter c elem) : TryBuild Unit)
      (do ((← get).pag.ptsOf n).forM (visit p enter' c elem)) := by
  refine .get_bind fun b b' h => ?_
  rw [h.pag.ptsOf]
  exact (TryRespects.forM fun _ _ => visit_respects henter).apply h

theorem onContainer_respects (henter : enter.Respects cmp enter') {c : ModelCall}
    {obj : NodeId} :
    TryRespects cmp.strict (Alike cmp) (onContainer p enter c obj)
      (onContainer p enter' c obj) := by
  have hvisit : ∀ elem, TryRespects cmp.strict (Alike cmp) (do
      if visitors.contains c.invoke.method.name then
        if let some n ← argNode? p c 0 then
          discard (addSite n { stmt := c.stmt, role := .arg 0 })
          ((← get).pag.ptsOf n).forM (visit p enter c elem) : TryBuild Unit) (do
      if visitors.contains c.invoke.method.name then
        if let some n ← argNode? p c 0 then
          discard (addSite n { stmt := c.stmt, role := .arg 0 })
          ((← get).pag.ptsOf n).forM (visit p enter' c elem)) := by
    intro elem
    split
    · refine .bind (.lift argNode?_respects) fun n => ?_
      cases n with
      | some n =>
        exact .bind (.lift (.discard addSite_respects)) fun _ => visitElements_respects henter
      | none => exact .pure
    · exact .pure
  refine .bind (.lift fieldNode_respects) fun elem => .bind (.forM fun index _ => ?_) fun _ => ?_
  · refine .bind (.lift argNode?_respects) fun src => ?_
    split
    · exact .lift (.discard addEdge_respects)
    · exact .pure
  · dsimp only
    cases c.result with
    | some result => exact .bind (.lift giveResult_respects) fun _ => hvisit elem
    | none => exact hvisit elem

theorem onCallback_respects (henter : enter.Respects cmp enter') {c : ModelCall}
    {base : ValueId} {obj : NodeId} : TryRespects cmp.strict (Alike cmp)
      (onCallback p enter c base obj) (onCallback p enter' c base obj) := by
  refine .bind (.lift valueNode_respects) fun receiver => .get_bind fun b b' h => ?_
  have hcontainers : (b'.pag.ptsOf receiver).filter b'.pag.isContainer =
      (b.pag.ptsOf receiver).filter b.pag.isContainer := by
    rw [h.pag.ptsOf, funext h.pag.isContainer]
  dsimp only
  rw [hcontainers]
  refine (TryRespects.bind (.forM fun o _ => ?_) fun _ => .pure).apply h
  exact .bind (.lift fieldNode_respects) fun elem => visit_respects henter

theorem model_respects : model.Respects cmp p where
  onCall _ := .pure
  onObject {enter enter' c role obj} henter := by
    have receiver : TryRespects cmp.strict (Alike cmp) (do
        if (← get).pag.isContainer obj then
          onContainer p enter c obj
          return true
        else return false : TryBuild Bool) (do
        if (← get).pag.isContainer obj then
          onContainer p enter' c obj
          return true
        else return false) := by
      refine .get_bind fun b b' h => ?_
      rw [h.pag.isContainer]
      refine TryRespects.apply ?_ h
      split
      · exact .bind (onContainer_respects henter) fun _ => .pure
      · exact .pure
    unfold model
    dsimp only
    split
    · exact .pure
    · split
      · exact receiver
      · exact receiver
      · cases c.invoke.base with
        | some base =>
          dsimp only
          split
          · exact onCallback_respects henter
          · exact .pure
        | none => exact .pure
      · exact .pure

end Library.Container

/-! ## All models -/

namespace LibraryModel

theorem standard_respects (cmp : Comparison) (p : Program) : ∀ m ∈ standard, m.Respects cmp p := by
  intro m hm
  simp only [standard, List.mem_cons, List.not_mem_nil, or_false] at hm
  rcases hm with rfl | rfl | rfl | rfl | rfl | rfl
  · exact Library.Storage.model_respects
  · exact Library.Function.model_respects
  · exact Library.TaskPool.model_respects
  · exact Library.Worker.model_respects
  · exact Library.Container.model_respects
  · exact Library.Sdk.model_respects

variable {ms : List LibraryModel}

theorem runOnCall_respects {c : ModelCall} (hms : ∀ m ∈ ms, m.Respects cmp p) :
    TryRespects cmp.strict (Alike cmp) (runOnCall p c ms) (runOnCall p c ms) := by
  induction ms with
  | nil => exact .pure
  | cons m ms ih =>
    have hrest := ih fun m' hm' => hms m' (List.mem_cons_of_mem _ hm')
    unfold runOnCall
    dsimp only
    split
    · refine .bind ((hms m List.mem_cons_self).onCall c) fun taken => ?_
      split
      · exact .pure
      · exact hrest
    · exact hrest

theorem runOnObject_respects (henter : enter.Respects cmp enter') {c : ModelCall}
    {role : SiteRole} {obj : NodeId} (hms : ∀ m ∈ ms, m.Respects cmp p) :
    TryRespects cmp.strict (Alike cmp) (runOnObject p enter c role obj ms)
      (runOnObject p enter' c role obj ms) := by
  induction ms with
  | nil => exact .pure
  | cons m ms ih =>
    refine .bind ((hms m List.mem_cons_self).onObject henter) fun taken => ?_
    split
    · exact .pure
    · exact ih fun m' hm' => hms m' (List.mem_cons_of_mem _ hm')

end LibraryModel

end PointsTo
