import PointsTo.Library.Standard
import PointsTo.Proofs.Links.Requests

/-!
# Library models keep links complete

A model asks the builder for nodes and edges and connects calls, so it guarantees whatever requests
and entering a callee guarantee.
-/

namespace PointsTo

open Builder (KeepsRequests)

variable {p : Program} {o : Outcomes} {R : Builder → Builder → Prop} [IsPreorder Builder R]
  {enter : Enter} {c : ModelCall}

/-! ## Requests that models share -/

namespace Build

theorem functionCallee_keepsRequests {fn : FunctionObject} :
    Guarantees (KeepsRequests p) (functionCallee p fn) := by
  unfold functionCallee
  split
  · exact .pure
  · exact funcOf_keepsRequests

theorem functionAt?_keepsRequests {n : NodeId} : Guarantees (KeepsRequests p) (functionAt? n) :=
  .bind .get fun _ => .pure

theorem callThrough_guarantees {binding : CallBinding} (h : enter.Guarantees p o R) :
    GuaranteesOn o R (callThrough p enter c binding) :=
  .bind (h.lift addCall_keepsRequests) fun _ => .discard (connect_guarantees h)

theorem watchArg_keepsRequests {index : Nat} :
    Guarantees (KeepsRequests p) (watchArg p c index) := by
  unfold watchArg
  split
  · exact .bind valueNode_keepsRequests fun _ => .discard addSite_keepsRequests
  · exact .pure

theorem argNode?_keepsRequests {index : Nat} :
    Guarantees (KeepsRequests p) (argNode? p c index) := by
  unfold argNode?
  split
  · exact .map valueNode_keepsRequests
  · exact .pure

theorem resultNode?_keepsRequests : Guarantees (KeepsRequests p) (resultNode? p c) := by
  unfold resultNode?
  split
  · exact .map valueNode_keepsRequests
  · exact .pure

end Build

open Build

/-! ## Models -/

/-- What entering a callee guarantees, the model guarantees too. At the first of its two chances it
asks for no methods, and does not fail. -/
structure LibraryModel.KeepsLinks (p : Program) (m : LibraryModel) : Prop where
  onCall : ∀ c b, TryTerminates (fun _ => False) (KeepsRequests p) (m.onCall p c) b fun _ _ => True
  onObject : ∀ {o : Outcomes} {R : Builder → Builder → Prop} [IsPreorder Builder R] {enter : Enter}
    {c role obj}, enter.Guarantees p o R → GuaranteesOn o R (m.onObject p enter c role obj)

namespace Library.Storage

/-- What is read, if the call reads. -/
theorem read_keepsRequests {n : NodeId} : PointsTo.Guarantees (KeepsRequests p) (do
      if readers.contains c.callee.name then
        if let some dst ← resultNode? p c then discard (addEdge .copy n dst)
      return true) := by
  dsimp only
  split
  · refine .bind resultNode?_keepsRequests fun dst => ?_
    split
    · exact .bind (.discard addEdge_keepsRequests) fun _ => .pure
    · exact .pure
  · exact .pure

theorem access_keepsRequests {store : String} :
    PointsTo.Guarantees (KeepsRequests p) (access p c store) := by
  unfold access
  dsimp only
  split
  · exact .pure
  · split
    · refine .bind nodeOf_keepsRequests fun n => ?_
      split
      · refine .bind argNode?_keepsRequests fun src => ?_
        split
        · exact .bind (.discard addEdge_keepsRequests) fun _ => read_keepsRequests
        · exact read_keepsRequests
      · exact read_keepsRequests
    · exact .pure

theorem model_keepsLinks : model.KeepsLinks p where
  onCall _ _ := .lift access_keepsRequests.spec
  onObject h := by
    refine .bind .get fun b => ?_
    split
    · exact .pure
    · exact .pure
    · exact h.lift access_keepsRequests

end Library.Storage

namespace Library.Function

theorem receiver_keepsRequests {fn : FunctionObject} :
    PointsTo.Guarantees (KeepsRequests p) (receiver p c fn) := by
  unfold receiver
  split
  · exact .pure
  · exact argNode?_keepsRequests

theorem spreadNode?_keepsRequests : PointsTo.Guarantees (KeepsRequests p) (spreadNode? p c) := by
  unfold spreadNode?
  refine .bind argNode?_keepsRequests fun base => ?_
  split
  · exact .map nodeWithKind_keepsRequests
  · exact .pure

theorem invoke_guarantees {obj : NodeId} {fn : FunctionObject} {cid : ContextId} {isApply : Bool}
    (h : enter.Guarantees p o R) : GuaranteesOn o R (invoke p enter c obj fn cid isApply) := by
  unfold invoke
  refine .bind (h.lift functionCallee_keepsRequests) fun callee => ?_
  refine .bind (h.lift receiver_keepsRequests) fun thisSrc => ?_
  cases isApply with
  | true =>
    refine .bind (h.lift spreadNode?_keepsRequests) fun spread => .bind .pure fun rest => ?_
    exact .bind (h.lift resultNode?_keepsRequests) fun result => callThrough_guarantees h
  | false =>
    refine .bind .pure fun spread => .bind (h.lift (argNodes_keepsRequests _ _)) fun rest => ?_
    exact .bind (h.lift resultNode?_keepsRequests) fun result => callThrough_guarantees h

theorem bind_keepsRequests {obj : NodeId} {fn : FunctionObject} :
    PointsTo.Guarantees (KeepsRequests p) (bind p c obj fn) := by
  unfold bind
  split
  · refine .bind functionCallee_keepsRequests fun func =>
      .bind receiver_keepsRequests fun boundThis => ?_
    refine .bind (argNodes_keepsRequests _ _) fun more =>
      .bind nodeWithKind_keepsRequests fun n => ?_
    exact .bind valueNode_keepsRequests fun _ => .discard addEdge_keepsRequests
  · exact .pure

theorem model_keepsLinks : model.KeepsLinks p where
  onCall _ _ := .pure trivial
  onObject h := by
    refine .bind .get fun b => ?_
    split
    · exact .pure
    · exact .pure
    · split
      · unfold onFunction
        split
        · exact .bind (invoke_guarantees h) fun _ => .pure
        · exact .bind (invoke_guarantees h) fun _ => .pure
        · exact .bind (h.lift bind_keepsRequests) fun _ => .pure
        · exact .pure
      · exact .pure

end Library.Function

namespace Library.TaskPool

theorem run_guarantees {obj : NodeId} {fn : FunctionObject} (h : enter.Guarantees p o R) :
    GuaranteesOn o R (run p enter c obj fn) := by
  unfold run
  refine .bind (h.lift functionCallee_keepsRequests) fun callee => ?_
  refine .bind (h.lift (argNodes_keepsRequests _ _)) fun rest => ?_
  dsimp only
  split
  · exact .bind (h.lift resultNode?_keepsRequests) fun _ => callThrough_guarantees h
  · exact .bind .pure fun _ => callThrough_guarantees h

theorem model_keepsLinks : model.KeepsLinks p where
  onCall _ _ := .seq (.lift watchArg_keepsRequests.spec) fun _ _ _ => .pure trivial
  onObject h := by
    unfold model
    dsimp only
    split
    · exact .pure
    · split
      · exact .bind (h.lift watchArg_keepsRequests) fun _ => .pure
      · refine .bind (h.lift functionAt?_keepsRequests) fun fn => ?_
        split
        · exact .bind (run_guarantees h) fun _ => .pure
        · exact .pure

end Library.TaskPool

namespace Library.Worker

theorem access_keepsRequests : PointsTo.Guarantees (KeepsRequests p) (access p c) := by
  unfold access
  split
  · refine .bind argNode?_keepsRequests fun src => ?_
    split
    · exact .bind nodeOf_keepsRequests fun _ => .discard addEdge_keepsRequests
    · exact .pure
  · split
    · exact watchArg_keepsRequests
    · exact .pure

theorem run_guarantees {obj : NodeId} {fn : FunctionObject} (h : enter.Guarantees p o R) :
    GuaranteesOn o R (run p enter c obj fn) := by
  unfold run
  refine .bind (h.lift functionCallee_keepsRequests) fun callee => ?_
  exact .bind (h.lift nodeOf_keepsRequests) fun message => callThrough_guarantees h

theorem model_keepsLinks : model.KeepsLinks p where
  onCall _ _ := .seq (.lift access_keepsRequests.spec) fun _ _ _ => .pure trivial
  onObject h := by
    unfold model
    dsimp only
    split
    · exact .pure
    · split
      · refine .bind (h.lift functionAt?_keepsRequests) fun fn => ?_
        split
        · exact .bind (run_guarantees h) fun _ => .pure
        · exact .pure
      · exact .bind (h.lift access_keepsRequests) fun _ => .pure

end Library.Worker

namespace Library.Sdk

theorem access_keepsRequests : PointsTo.Guarantees (KeepsRequests p) (access p c) := by
  have watch : PointsTo.Guarantees (KeepsRequests p) (c.positions.forM (watchArg p c)) :=
    .forM fun _ _ => watchArg_keepsRequests
  unfold access
  split
  · refine .bind nodeOf_keepsRequests fun obj => .bind valueNode_keepsRequests fun _ => ?_
    exact .bind (.discard addEdge_keepsRequests) fun _ => watch
  · exact watch

theorem run_guarantees {obj : NodeId} {fn : FunctionObject} (h : enter.Guarantees p o R) :
    GuaranteesOn o R (run p enter c obj fn) :=
  .bind (h.lift functionCallee_keepsRequests) fun _ => callThrough_guarantees h

theorem model_keepsLinks : model.KeepsLinks p where
  onCall _ _ := .seq (.lift access_keepsRequests.spec) fun _ _ _ => .pure trivial
  onObject h := by
    unfold model
    dsimp only
    split
    · exact .pure
    · split
      · refine .bind (h.lift functionAt?_keepsRequests) fun fn => ?_
        split
        · exact .bind (run_guarantees h) fun _ => .pure
        · exact .pure
      · exact .bind (h.lift access_keepsRequests) fun _ => .pure

end Library.Sdk

namespace Library.Container

theorem visit_guarantees {elem obj : NodeId} (h : enter.Guarantees p o R) :
    GuaranteesOn o R (visit p enter c elem obj) := by
  unfold visit
  refine .bind (h.lift functionAt?_keepsRequests) fun fn => ?_
  split
  · exact .bind (h.lift functionCallee_keepsRequests) fun _ => callThrough_guarantees h
  · exact .pure

theorem concatArg_keepsRequests {newElem : NodeId} {index : Nat} :
    PointsTo.Guarantees (KeepsRequests p) (concatArg p c newElem index) := by
  unfold concatArg
  split
  · refine .bind valueNode_keepsRequests fun n => ?_
    split
    · exact .bind nodeWithKind_keepsRequests fun _ => .discard addEdge_keepsRequests
    · exact .discard addEdge_keepsRequests
  · exact .pure

theorem copyInto_keepsRequests {elem : NodeId} {result : ValueId} :
    PointsTo.Guarantees (KeepsRequests p) (copyInto p c elem result) := by
  unfold copyInto
  refine .bind nodeWithKind_keepsRequests fun copy => .bind valueNode_keepsRequests fun _ => ?_
  refine .bind (.discard addEdge_keepsRequests) fun _ =>
    .bind fieldNode_keepsRequests fun newElem => ?_
  refine .bind (.discard addEdge_keepsRequests) fun _ => ?_
  split
  · exact .forM fun _ _ => concatArg_keepsRequests
  · exact .pure

theorem giveResult_keepsRequests {elem : NodeId} {result : ValueId} :
    PointsTo.Guarantees (KeepsRequests p) (giveResult p c elem result) := by
  unfold giveResult
  dsimp only
  split
  · exact .bind valueNode_keepsRequests fun _ => .discard addEdge_keepsRequests
  · split
    · split
      · exact .bind valueNode_keepsRequests fun _ => .bind valueNode_keepsRequests fun _ =>
          .discard addEdge_keepsRequests
      · exact .pure
    · split
      · exact copyInto_keepsRequests
      · exact .pure

/-- Functions that are given the elements. -/
theorem visitElements_guarantees {elem : NodeId} (h : enter.Guarantees p o R) : GuaranteesOn o R (do
      if visitors.contains c.invoke.method.name then
        if let some n ← argNode? p c 0 then
          discard (addSite n { stmt := c.stmt, role := .arg 0 })
          ((← get).pag.ptsOf n).forM (visit p enter c elem) : TryBuild Unit) := by
  split
  · refine .bind (h.lift argNode?_keepsRequests) fun n => ?_
    split
    · refine .bind (h.lift (.discard addSite_keepsRequests)) fun _ => .bind .get fun b => ?_
      exact .forM fun _ _ => visit_guarantees h
    · exact .pure
  · exact .pure

theorem onContainer_guarantees {obj : NodeId} (h : enter.Guarantees p o R) :
    GuaranteesOn o R (onContainer p enter c obj) := by
  unfold onContainer
  refine .bind (h.lift fieldNode_keepsRequests) fun elem =>
    .bind (.forM fun index _ => ?_) fun _ => ?_
  · refine .bind (h.lift argNode?_keepsRequests) fun src => ?_
    split
    · exact h.lift (.discard addEdge_keepsRequests)
    · exact .pure
  · dsimp only
    split
    · exact .bind (h.lift giveResult_keepsRequests) fun _ => visitElements_guarantees h
    · exact visitElements_guarantees h

theorem onCallback_guarantees {base : ValueId} {obj : NodeId} (h : enter.Guarantees p o R) :
    GuaranteesOn o R (onCallback p enter c base obj) := by
  unfold onCallback
  refine .bind (h.lift valueNode_keepsRequests) fun receiver => .bind .get fun b => ?_
  refine .bind (.forM fun o _ => ?_) fun _ => .pure
  exact .bind (h.lift fieldNode_keepsRequests) fun elem => visit_guarantees h

theorem model_keepsLinks : model.KeepsLinks p where
  onCall _ _ := .pure trivial
  onObject {o R _ enter c role obj} h := by
    have receiver : GuaranteesOn o R (do
        if (← get).pag.isContainer obj then
          onContainer p enter c obj
          return true
        else return false : TryBuild Bool) := by
      refine .bind .get fun b => ?_
      split
      · exact .bind (onContainer_guarantees h) fun _ => .pure
      · exact .pure
    unfold model
    dsimp only
    split
    · exact .pure
    · split
      · exact receiver
      · exact receiver
      · split
        · split
          · exact onCallback_guarantees h
          · exact .pure
        · exact .pure
      · exact .pure

end Library.Container

namespace LibraryModel

theorem standard_keepsLinks (p : Program) : ∀ m ∈ standard, m.KeepsLinks p := by
  intro m hm
  simp only [standard, List.mem_cons, List.not_mem_nil, or_false] at hm
  rcases hm with rfl | rfl | rfl | rfl | rfl | rfl
  · exact Library.Storage.model_keepsLinks
  · exact Library.Function.model_keepsLinks
  · exact Library.TaskPool.model_keepsLinks
  · exact Library.Worker.model_keepsLinks
  · exact Library.Container.model_keepsLinks
  · exact Library.Sdk.model_keepsLinks

theorem runOnCall_linkSpec {ms : List LibraryModel} (hms : ∀ m ∈ ms, m.KeepsLinks p) {b : Builder} :
    TryTerminates (fun _ => False) (KeepsRequests p) (runOnCall p c ms) b fun _ _ => True := by
  induction ms generalizing b with
  | nil => exact .pure trivial
  | cons m ms ih =>
    have hrest := @ih fun m' hm' => hms m' (List.mem_cons_of_mem _ hm')
    unfold runOnCall
    dsimp only
    split
    · refine .seq ((hms m List.mem_cons_self).onCall c b) fun taken _ _ => ?_
      split
      · exact .pure trivial
      · exact hrest
    · exact hrest

theorem runOnObject_guarantees {role : SiteRole} {obj : NodeId} {ms : List LibraryModel}
    (hms : ∀ m ∈ ms, m.KeepsLinks p) (h : enter.Guarantees p o R) :
    GuaranteesOn o R (runOnObject p enter c role obj ms) := by
  induction ms with
  | nil => exact .pure
  | cons m ms ih =>
    unfold runOnObject
    refine .bind ((hms m List.mem_cons_self).onObject h) fun taken => ?_
    split
    · exact .pure
    · exact ih fun m' hm' => hms m' (List.mem_cons_of_mem _ hm')

end LibraryModel

end PointsTo
