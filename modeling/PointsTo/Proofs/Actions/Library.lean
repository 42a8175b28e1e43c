import PointsTo.Library.Standard
import PointsTo.Proofs.Actions.Requests

/-!
# What library models do are actions

What a model asks for are arguments that are locals, the receiver and the result of its call, and
places of its own. So all that it does are actions, if the call that it models is one of the
program (`ModelCall.OfProgram`).
-/

namespace PointsTo

open Builder (Actions)

/-- The call is that of a statement of the program. -/
structure ModelCall.OfProgram (p : Program) (c : ModelCall) : Prop where
  invoke : p.invokeOf? c.stmt = some c.invoke
  result : (p.stmt? c.stmt).bind Stmt.defValue? = c.result

variable {p : Program} {b : Builder} {enter : Enter} {c : ModelCall}

namespace ModelCall

variable {v : ValueId}

theorem OfProgram.not_onlyAssigned_result (hc : c.OfProgram p) (h : c.result = some v) :
    ¬p.OnlyAssigned v :=
  Program.not_onlyAssigned_of_defValue? (hc.result.trans h)

theorem OfProgram.not_onlyAssigned_base (hc : c.OfProgram p) (h : c.invoke.base = some v) :
    ¬p.OnlyAssigned v :=
  Program.not_onlyAssigned_of_invoke hc.invoke h

theorem not_onlyAssigned_localArg {index : Nat} (h : c.localArg? p index = some v) :
    ¬p.OnlyAssigned v :=
  Program.not_onlyAssigned_of_isLocal (Option.filter_eq_some_iff.1 h).2

end ModelCall

/-! ## Requests that models share -/

namespace Build

theorem functionCallee_actions {fn : FunctionObject} :
    Guarantees (Actions p) (functionCallee p fn) := by
  unfold functionCallee
  split
  · exact .pure
  · exact funcOf_actions

theorem functionAt?_actions {n : NodeId} : Guarantees (Actions p) (functionAt? n) :=
  .bind .get fun _ => .pure

/-- A node that stands for no value, and is no function. -/
theorem nodeWithKind_actions_of_ne_value {cid : ContextId} {e : Entity} {kind : NodeKind}
    (he : ∀ v, e ≠ .value v) (hkind : ∀ fn, kind ≠ .function fn) :
    Guarantees (Actions p) (nodeWithKind p cid e kind) :=
  fun _ => (nodeWithKind_actions (.of_ne he) fun fn h => absurd h (hkind fn)).1

theorem callThrough_actions {binding : CallBinding} (h : enter.ByActions p) :
    GuaranteesOn .all (Actions p) (callThrough p enter c binding) :=
  .bind (.lift addCall_actions) fun _ => .discard (.of_spec fun _ => connect_actions h)

theorem watchArg_actions {index : Nat} : Guarantees (Actions p) (watchArg p c index) := by
  unfold watchArg
  split
  · rename_i v hv
    refine .bind (valueNode_actions (ModelCall.not_onlyAssigned_localArg hv)) fun _ => ?_
    exact .discard addSite_actions
  · exact .pure

/-- The argument has its node then, if it is a local. -/
theorem argNode?_found {index : Nat} :
    Spec (Actions p) (argNode? p c index) b fun n b' =>
      Option.Rel (p.NodeOf b'.pag) ((c.localArg? p index).map (c.callerCid, ·)) n := by
  unfold argNode?
  cases harg : c.localArg? p index with
  | some v =>
    refine .map ((valueNode_found (ModelCall.not_onlyAssigned_localArg harg)).mono ?_)
    exact fun n b' _ (hn : p.NodeOf b'.pag (c.callerCid, v) n) => .some hn
  | none => exact .pure .none

theorem argNode?_actions {index : Nat} : Guarantees (Actions p) (argNode? p c index) :=
  .of_spec fun _ => argNode?_found

theorem resultNode?_actions (hc : c.OfProgram p) : Guarantees (Actions p) (resultNode? p c) := by
  unfold resultNode?
  split
  · rename_i v hv
    exact .map (valueNode_actions (hc.not_onlyAssigned_result hv))
  · exact .pure

end Build

open Build

/-! ## Models -/

/-- At both chances that a model gets, all that it does are actions. -/
structure LibraryModel.ByActions (p : Program) (m : LibraryModel) : Prop where
  onCall : ∀ {c : ModelCall}, c.OfProgram p → GuaranteesOn .all (Actions p) (m.onCall p c)
  onObject : ∀ {enter : Enter} {c : ModelCall} {role obj}, enter.ByActions p → c.OfProgram p →
    GuaranteesOn .all (Actions p) (m.onObject p enter c role obj)

namespace Library.Storage

/-- What is read, if the call reads. -/
theorem read_actions (hc : c.OfProgram p) {n : NodeId} : Guarantees (Actions p) (do
      if readers.contains c.callee.name then
        if let some dst ← resultNode? p c then discard (addEdge .copy n dst)
      return true) := by
  dsimp only
  split
  · refine .bind (resultNode?_actions hc) fun dst => ?_
    split
    · exact .bind (.discard addEdge_actions) fun _ => .pure
    · exact .pure
  · exact .pure

theorem access_actions (hc : c.OfProgram p) {store : String} :
    Guarantees (Actions p) (access p c store) := by
  unfold access
  dsimp only
  split
  · exact .pure
  · split
    · refine .bind (nodeOf_actions_of_ne_value nofun) fun n => ?_
      split
      · refine .bind argNode?_actions fun src => ?_
        split
        · exact .bind (.discard addEdge_actions) fun _ => read_actions hc
        · exact read_actions hc
      · exact read_actions hc
    · exact .pure

theorem model_byActions : model.ByActions p where
  onCall hc := .lift (access_actions hc)
  onObject _ hc := by
    refine .bind .get fun b => ?_
    split
    · exact .pure
    · exact .pure
    · exact .lift (access_actions hc)

end Library.Storage

namespace Library.Function

theorem receiver_fixes {fn : FunctionObject} :
    Spec (Actions p) (receiver p c fn) b fun n b' =>
      p.FixesThis b'.pag (c.callerCid, c.invoke.args) fn.boundThis n := by
  unfold receiver
  cases fn.boundThis with
  | some n => exact .pure rfl
  | none => exact argNode?_found

theorem receiver_actions {fn : FunctionObject} : Guarantees (Actions p) (receiver p c fn) :=
  .of_spec fun _ => receiver_fixes

theorem spreadNode?_actions : Guarantees (Actions p) (spreadNode? p c) := by
  unfold spreadNode?
  refine .bind argNode?_actions fun base => ?_
  split
  · exact .map (nodeWithKind_actions_of_ne_value nofun nofun)
  · exact .pure

theorem invoke_actions {obj : NodeId} {fn : FunctionObject} {cid : ContextId} {isApply : Bool}
    (h : enter.ByActions p) (hc : c.OfProgram p) :
    GuaranteesOn .all (Actions p) (invoke p enter c obj fn cid isApply) := by
  unfold invoke
  refine .bind (.lift functionCallee_actions) fun callee => ?_
  refine .bind (.lift receiver_actions) fun thisSrc => ?_
  cases isApply with
  | true =>
    refine .bind (.lift spreadNode?_actions) fun spread => .bind .pure fun rest => ?_
    exact .bind (.lift (resultNode?_actions hc)) fun result => callThrough_actions h
  | false =>
    refine .bind .pure fun spread => .bind (.lift (argNodes_actions _ _)) fun rest => ?_
    exact .bind (.lift (resultNode?_actions hc)) fun result => callThrough_actions h

/-- What `bind` makes holds what it was told to. -/
theorem bind_actions {obj : NodeId} {fn : FunctionObject} (hc : c.OfProgram p)
    (hfn : b.pag.function? obj = some fn) :
    Spec (Actions p) (bind p c obj fn) b fun _ _ => True := by
  unfold bind
  split
  · rename_i v hv
    refine .seq functionCallee_actions.spec fun func b₁ h₁ => ?_
    refine .bind receiver_fixes fun boundThis b₂ h₂ hthis => ?_
    refine .bind (argNodes_passes _ _) fun more b₃ h₃ hmore => ?_
    have hof := (h₁.extends.trans (h₂.extends.trans h₃.extends)).pag.function? hfn
    have hmade : p.MakesFunction b₃.pag c.callerCid (.boundFunction c.stmt obj) _ :=
      .bound (some func) hc.invoke hof (hthis.mono h₃.extends.pag) hmore
    refine .seq (nodeWithKind_actions (.of_ne nofun) ?_) fun n b₄ _ => ?_
    · rintro _ ⟨⟩
      exact hmade
    · refine .seq (valueNode_actions (hc.not_onlyAssigned_result hv)).spec fun _ _ _ => ?_
      exact .discard addEdge_actions.spec
  · exact .pure trivial

theorem model_byActions : model.ByActions p where
  onCall _ := .pure
  onObject h hc := by
    refine .of_spec (Q := fun _ _ _ => True) fun b => .get_bind ?_
    split
    · exact .pure trivial
    · exact .pure trivial
    · rename_i n _ hn
      split
      · rename_i fn hfn
        have hobj : b.pag.function? _ = some fn := Option.bind_eq_some_iff.2 ⟨n, hn, hfn⟩
        unfold onFunction
        split
        · exact .seq (invoke_actions h hc).spec fun _ _ _ => .pure trivial
        · exact .seq (invoke_actions h hc).spec fun _ _ _ => .pure trivial
        · exact .seq (.lift (bind_actions hc hobj)) fun _ _ _ => .pure trivial
        · exact .pure trivial
      · exact .pure trivial

end Library.Function

namespace Library.TaskPool

theorem run_actions {obj : NodeId} {fn : FunctionObject} (h : enter.ByActions p)
    (hc : c.OfProgram p) : GuaranteesOn .all (Actions p) (run p enter c obj fn) := by
  unfold run
  refine .bind (.lift functionCallee_actions) fun callee => ?_
  refine .bind (.lift (argNodes_actions _ _)) fun rest => ?_
  dsimp only
  split
  · exact .bind (.lift (resultNode?_actions hc)) fun _ => callThrough_actions h
  · exact .bind .pure fun _ => callThrough_actions h

theorem model_byActions : model.ByActions p where
  onCall _ := .bind (.lift watchArg_actions) fun _ => .pure
  onObject h hc := by
    unfold model
    dsimp only
    split
    · exact .pure
    · split
      · exact .bind (.lift watchArg_actions) fun _ => .pure
      · refine .bind (.lift functionAt?_actions) fun fn => ?_
        split
        · exact .bind (run_actions h hc) fun _ => .pure
        · exact .pure

end Library.TaskPool

namespace Library.Worker

theorem access_actions : Guarantees (Actions p) (access p c) := by
  unfold access
  split
  · refine .bind argNode?_actions fun src => ?_
    split
    · exact .bind (nodeOf_actions_of_ne_value nofun) fun _ => .discard addEdge_actions
    · exact .pure
  · split
    · exact watchArg_actions
    · exact .pure

theorem run_actions {obj : NodeId} {fn : FunctionObject} (h : enter.ByActions p) :
    GuaranteesOn .all (Actions p) (run p enter c obj fn) := by
  unfold run
  refine .bind (.lift functionCallee_actions) fun callee => ?_
  exact .bind (.lift (nodeOf_actions_of_ne_value nofun)) fun message => callThrough_actions h

theorem model_byActions : model.ByActions p where
  onCall _ := .bind (.lift access_actions) fun _ => .pure
  onObject h _ := by
    unfold model
    dsimp only
    split
    · exact .pure
    · split
      · refine .bind (.lift functionAt?_actions) fun fn => ?_
        split
        · exact .bind (run_actions h) fun _ => .pure
        · exact .pure
      · exact .bind (.lift access_actions) fun _ => .pure

end Library.Worker

namespace Library.Sdk

theorem access_actions (hc : c.OfProgram p) : Guarantees (Actions p) (access p c) := by
  have watch : Guarantees (Actions p) (c.positions.forM (watchArg p c)) :=
    .forM fun _ _ => watchArg_actions
  unfold access
  split
  · rename_i v hv
    refine .bind (nodeOf_actions_of_ne_value nofun) fun obj => ?_
    refine .bind (valueNode_actions (hc.not_onlyAssigned_result hv)) fun _ => ?_
    exact .bind (.discard addEdge_actions) fun _ => watch
  · exact watch

theorem run_actions {obj : NodeId} {fn : FunctionObject} (h : enter.ByActions p) :
    GuaranteesOn .all (Actions p) (run p enter c obj fn) :=
  .bind (.lift functionCallee_actions) fun _ => callThrough_actions h

theorem model_byActions : model.ByActions p where
  onCall hc := .bind (.lift (access_actions hc)) fun _ => .pure
  onObject h hc := by
    unfold model
    dsimp only
    split
    · exact .pure
    · split
      · refine .bind (.lift functionAt?_actions) fun fn => ?_
        split
        · exact .bind (run_actions h) fun _ => .pure
        · exact .pure
      · exact .bind (.lift (access_actions hc)) fun _ => .pure

end Library.Sdk

namespace Library.Container

theorem visit_actions {elem obj : NodeId} (h : enter.ByActions p) :
    GuaranteesOn .all (Actions p) (visit p enter c elem obj) := by
  unfold visit
  refine .bind (.lift functionAt?_actions) fun fn => ?_
  split
  · exact .bind (.lift functionCallee_actions) fun _ => callThrough_actions h
  · exact .pure

theorem concatArg_actions {newElem : NodeId} {index : Nat} :
    Guarantees (Actions p) (concatArg p c newElem index) := by
  unfold concatArg
  split
  · rename_i v hv
    refine .bind (valueNode_actions (ModelCall.not_onlyAssigned_localArg hv)) fun n => ?_
    split
    · exact .bind (nodeWithKind_actions_of_ne_value nofun nofun) fun _ => .discard addEdge_actions
    · exact .discard addEdge_actions
  · exact .pure

theorem copyInto_actions {elem : NodeId} {result : ValueId} (hresult : ¬p.OnlyAssigned result) :
    Guarantees (Actions p) (copyInto p c elem result) := by
  unfold copyInto
  refine .bind (nodeWithKind_actions_of_ne_value nofun nofun) fun copy => ?_
  refine .bind (valueNode_actions hresult) fun _ => ?_
  refine .bind (.discard addEdge_actions) fun _ => .bind fieldNode_actions fun newElem => ?_
  refine .bind (.discard addEdge_actions) fun _ => ?_
  split
  · exact .forM fun _ _ => concatArg_actions
  · exact .pure

theorem giveResult_actions {elem : NodeId} {result : ValueId} (hc : c.OfProgram p)
    (hresult : ¬p.OnlyAssigned result) : Guarantees (Actions p) (giveResult p c elem result) := by
  have node : Guarantees (Actions p) (valueNode p c.callerCid result) := valueNode_actions hresult
  unfold giveResult
  dsimp only
  split
  · exact .bind node fun _ => .discard addEdge_actions
  · split
    · split
      · rename_i base hbase
        refine .bind (valueNode_actions (hc.not_onlyAssigned_base hbase)) fun _ => ?_
        exact .bind node fun _ => .discard addEdge_actions
      · exact .pure
    · split
      · exact copyInto_actions hresult
      · exact .pure

/-- Functions that are given the elements. -/
theorem visitElements_actions {elem : NodeId} (h : enter.ByActions p) :
    GuaranteesOn .all (Actions p) (do
      if visitors.contains c.invoke.method.name then
        if let some n ← argNode? p c 0 then
          discard (addSite n { stmt := c.stmt, role := .arg 0 })
          ((← get).pag.ptsOf n).forM (visit p enter c elem) : TryBuild Unit) := by
  split
  · refine .bind (.lift argNode?_actions) fun n => ?_
    split
    · refine .bind (.lift (.discard addSite_actions)) fun _ => .bind .get fun b => ?_
      exact .forM fun _ _ => visit_actions h
    · exact .pure
  · exact .pure

/-- Arguments that are stored. -/
theorem store_actions {elem : NodeId} :
    GuaranteesOn .all (Actions p) ((storedPositions c).forM fun index => do
      if let some src ← argNode? p c index then
        discard (addEdge .copy src elem) : TryBuild Unit) := by
  refine .forM fun index _ => .bind (.lift argNode?_actions) fun src => ?_
  split
  · exact .lift (.discard addEdge_actions)
  · exact .pure

theorem onContainer_actions {obj : NodeId} (h : enter.ByActions p) (hc : c.OfProgram p) :
    GuaranteesOn .all (Actions p) (onContainer p enter c obj) := by
  unfold onContainer
  refine .bind (.lift fieldNode_actions) fun elem => .bind store_actions fun _ => ?_
  dsimp only
  split
  · rename_i v hv
    refine .bind (.lift (giveResult_actions hc (hc.not_onlyAssigned_result hv))) fun _ => ?_
    exact visitElements_actions h
  · exact visitElements_actions h

theorem onCallback_actions {base : ValueId} {obj : NodeId} (h : enter.ByActions p)
    (hbase : ¬p.OnlyAssigned base) :
    GuaranteesOn .all (Actions p) (onCallback p enter c base obj) := by
  unfold onCallback
  refine .bind (.lift (valueNode_actions hbase)) fun receiver => .bind .get fun b => ?_
  refine .bind (.forM fun o _ => ?_) fun _ => .pure
  exact .bind (.lift fieldNode_actions) fun elem => visit_actions h

theorem model_byActions : model.ByActions p where
  onCall _ := .pure
  onObject {enter c role obj} h hc := by
    have receiver : GuaranteesOn .all (Actions p) (do
        if (← get).pag.isContainer obj then
          onContainer p enter c obj
          return true
        else return false : TryBuild Bool) := by
      refine .bind .get fun b => ?_
      split
      · exact .bind (onContainer_actions h hc) fun _ => .pure
      · exact .pure
    unfold model
    dsimp only
    split
    · exact .pure
    · split
      · exact receiver
      · exact receiver
      · split
        · rename_i base hbase
          split
          · exact onCallback_actions h (hc.not_onlyAssigned_base hbase)
          · exact .pure
        · exact .pure
      · exact .pure

end Library.Container

namespace LibraryModel

theorem standard_byActions (p : Program) : ∀ m ∈ standard, m.ByActions p := by
  intro m hm
  simp only [standard, List.mem_cons, List.not_mem_nil, or_false] at hm
  rcases hm with rfl | rfl | rfl | rfl | rfl | rfl
  · exact Library.Storage.model_byActions
  · exact Library.Function.model_byActions
  · exact Library.TaskPool.model_byActions
  · exact Library.Worker.model_byActions
  · exact Library.Container.model_byActions
  · exact Library.Sdk.model_byActions

theorem runOnCall_actions {ms : List LibraryModel} (hms : ∀ m ∈ ms, m.ByActions p)
    (hc : c.OfProgram p) : GuaranteesOn .all (Actions p) (runOnCall p c ms) := by
  induction ms with
  | nil => exact .pure
  | cons m ms ih =>
    have hrest := ih fun m' hm' => hms m' (List.mem_cons_of_mem _ hm')
    unfold runOnCall
    dsimp only
    split
    · refine .bind ((hms m List.mem_cons_self).onCall hc) fun taken => ?_
      split
      · exact .pure
      · exact hrest
    · exact hrest

theorem runOnObject_actions {role : SiteRole} {obj : NodeId} {ms : List LibraryModel}
    (hms : ∀ m ∈ ms, m.ByActions p) (h : enter.ByActions p) (hc : c.OfProgram p) :
    GuaranteesOn .all (Actions p) (runOnObject p enter c role obj ms) := by
  induction ms with
  | nil => exact .pure
  | cons m ms ih =>
    unfold runOnObject
    refine .bind ((hms m List.mem_cons_self).onObject h hc) fun taken => ?_
    split
    · exact .pure
    · exact ih fun m' hm' => hms m' (List.mem_cons_of_mem _ hm')

end LibraryModel

end PointsTo
