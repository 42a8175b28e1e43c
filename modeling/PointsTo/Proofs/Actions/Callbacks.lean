import PointsTo.Proofs.Actions.Arrows

/-!
# Callbacks of containers

The methods of containers that visit their elements call a function object on them. This is done
from two sides. A container that reaches the receiver has the functions visit it that are at the
argument by then, and the argument is watched. A function that reaches the argument visits the
containers that are at the receiver by then. For each side there is one lemma here that says so.
-/

namespace PointsTo

open Builder (Actions CallContext)
open Build Library

variable {p : Program} {b b' b₁ b₂ : Builder} {c : ModelCall} {cid : ContextId} {m : MethodSig}
  {o g elem : NodeId} {fn : FunctionObject} {receiver callback : ValueId}

/-- In the context, the method gets what is at a node as the argument at a position. -/
def Program.Gets (p : Program) (g : Pag) (m : MethodSig) (cid : ContextId) (arg : NodeId × Nat) :
    Prop :=
  ∀ param, (p.params m).lookup arg.2 = some param →
    ∃ dst, nodeIn? g cid (entityOf p param) = some dst ∧ ⟨.copy, arg.1, dst⟩ ∈ g.edges

theorem Program.Gets.mono {g g' : Pag} {arg : NodeId × Nat} (h : p.Gets g m cid arg)
    (hg : g.Extends g') : p.Gets g' m cid arg := by
  intro param hparam
  obtain ⟨dst, hdst, he⟩ := h param hparam
  exact ⟨dst, nodeIn?_mono (entityOf_isPlain p param) hg hdst, hg.edge he⟩

namespace Build

/-! ## Arguments -/

theorem connectArgs_gets {args : List (NodeId × Nat)} : Spec (Actions p) (args.forM fun arg => do
      if let some param := (p.params m).lookup arg.2 then
        discard (addEdge .copy arg.1 (← valueNode p cid param))) b fun _ b' =>
      ∀ arg ∈ args, arg.1 < b.pag.nodes.size → p.Gets b'.pag m cid arg := by
  refine .forM ?_ fun arg _ b₁ h₁ => ?_
  · exact fun arg b₁ b₂ h hgets hlt => (hgets hlt).mono h.extends.pag
  · split
    · rename_i param hparam
      obtain ⟨l₁, l₂, hparams, -⟩ := List.lookup_eq_some_iff.1 hparam
      have hmem : (arg.2, param) ∈ p.params m := by simp [hparams]
      refine .bind (valueNode_found (Program.not_onlyAssigned_of_params hmem)) ?_
      intro dst b₂ h₂ hdst
      refine .discard ⟨addEdge_actions b₂, fun hlt param' hparam' => ?_⟩
      cases hparam.symm.trans hparam'
      rw [Builder.run_addEdge]
      have hsrc := h₂.extends.pag.lt (h₁.extends.pag.lt hlt)
      exact ⟨dst, nodeIn?_mono (entityOf_isPlain p param) (b₂.pag.addEdge_extends ..) hdst,
        Pag.mem_edges_of_addEdge hsrc (lt_of_nodeIn? hdst)⟩
    · rename_i hnone
      exact .pure fun _ param hparam => (hnone param hparam).elim

theorem connectFlow_gets {binding : CallBinding} {decl : MethodDecl} :
    Spec (Actions p) (connectFlow p binding decl cid) b fun _ b' =>
      ∀ arg ∈ binding.args, arg.1 < b.pag.nodes.size → p.Gets b'.pag decl.sig cid arg := by
  unfold connectFlow
  refine .bind connectArgs_gets fun _ b₁ _ hgets => ?_
  refine Spec.mono (Guarantees.spec ?_) fun _ b₂ h₂ _ arg harg hlt =>
    (hgets arg harg hlt).mono (Actions.extends h₂).pag
  dsimp only
  split
  · exact .bind connectSpread_actions fun _ => connectResult_actions
  · exact connectResult_actions

/-- The callee gets the arguments in the context that it was entered in. `K` is what is known of
this context. -/
theorem connect_gets {enter : Enter} {binding : CallBinding} {K : ContextId → Builder → Prop}
    (stable : ∀ {cid b₁ b₂}, Builder.Extends b₁ b₂ → K cid b₁ → K cid b₂)
    (henter : TrySpec (Actions p) (enterCallee p enter binding) b K)
    (hm : b.graph.methodOf? binding.callee = some m) (hbody : p.hasBody m = true) :
    TrySpec (Actions p) (connect p enter binding) b fun _ b' => ∃ cid, K cid b' ∧
      ∀ arg ∈ binding.args, arg.1 < b.pag.nodes.size → p.Gets b'.pag m cid arg := by
  obtain ⟨decl, hdecl, hwritten⟩ := (Option.any_eq_true _ _).1 hbody
  have hsig : decl.sig = m := by simpa using Array.find?_some hdecl
  subst hsig
  refine connect_enters stable henter hm hdecl hwritten fun {cid b₁} h₁ => ?_
  exact connectFlow_gets.mono fun _ b₂ _ hgets arg harg hlt =>
    hgets arg harg (h₁.extends.pag.lt hlt)

/-- The call is recorded, and the callee gets the arguments in the context of the call. -/
theorem callThrough_gets {binding : CallBinding} (hm : b.graph.methodOf? binding.callee = some m)
    (hbody : p.hasBody m = true) :
    TrySpec (Actions p) (callThrough p enqueue c binding) b fun _ b' =>
      b'.graph.Calls c.caller binding.callee .indirect c.stmt ∧ ∃ cid,
        CallContext b b' binding.callerCid binding.site binding.contextObj binding.callee cid ∧
        ∀ arg ∈ binding.args, arg.1 < b.pag.nodes.size → p.Gets b'.pag m cid arg := by
  have hcall : Spec (Actions p) (addCall c.caller binding.callee c.stmt .indirect) b fun _ b' =>
      b'.graph.Calls c.caller binding.callee .indirect c.stmt :=
    ⟨addCall_actions b, b.graph.calls_addCall ..⟩
  unfold callThrough
  refine .bind (.lift hcall) fun _ b₁ h₁ hcalls => .discard ?_
  have hconnect := connect_gets (K := fun cid b' => CallContext b₁ b' binding.callerCid
      binding.site binding.contextObj binding.callee cid) (fun h hk => hk.mono .rfl h)
    (enterCallee_enqueue.mono fun _ _ _ h => h.2) (h₁.extends.graph.method hm) hbody
  refine hconnect.mono fun _ b₂ h₂ ⟨cid, hcontext, hgets⟩ => ?_
  refine ⟨h₂.extends.graph.calls hcalls, cid, hcontext.mono h₁.extends.contexts .rfl, ?_⟩
  exact fun arg harg hlt => hgets arg harg (h₁.extends.pag.lt hlt)

end Build

/-! ## Visits -/

/-- From `b` to `b'` the function object `g` was called on the elements of the container `o`: the
call is recorded, and the method of the function object gets the elements as the argument after
those that are fixed, in the context of the call. -/
structure ModelCall.Visits (p : Program) (c : ModelCall) (b b' : Builder) (o g : NodeId)
    (fn : FunctionObject) : Prop where
  container : b'.pag.isContainer o = true
  called : ∃ callee elem cid, b'.graph.methodOf? callee = some fn.method ∧
    b'.graph.Calls c.caller callee .indirect c.stmt ∧ b'.pag.fieldNode? o .element = some elem ∧
    CallContext b b' c.callerCid c.site (some g) callee cid ∧
    p.Gets b'.pag fn.method cid (elem, fn.argOffset)

theorem ModelCall.Visits.mono (h : c.Visits p b₁ b₂ o g fn)
    (hfrom : b.contexts.Extends b₁.contexts) (hto : b₂.Extends b') : c.Visits p b b' o g fn := by
  obtain ⟨hcontainer, callee, elem, cid, hm, hcalls, helem, hcontext, hgets⟩ := h
  have ho := Pag.lt_of_isContainer hcontainer
  exact ⟨(hto.pag.isContainer ho).trans hcontainer, callee, elem, cid, hto.graph.method hm,
    hto.graph.calls hcalls, hto.pag.fieldNode? ho helem, hcontext.mono hfrom hto,
    hgets.mono hto.pag⟩

/-- From `b` to `b'` a container has reached the receiver: the callback is watched, and the function
objects that are there were called. -/
def ModelCall.FindsFunctions (p : Program) (c : ModelCall) (callback : ValueId) (b b' : Builder)
    (o : NodeId) : Prop :=
  ∃ n, nodeIn? b'.pag c.callerCid (entityOf p callback) = some n ∧
    ⟨c.stmt, .arg 0⟩ ∈ b'.pag.sitesOf n ∧ ∀ {g fn}, b.HasFunctionObject g fn →
    p.hasBody fn.method = true →
      g ∈ b.pag.ptsOf n → c.Visits p b b' o g fn

theorem ModelCall.FindsFunctions.mono (h : c.FindsFunctions p callback b₁ b₂ o)
    (hfrom : b.Extends b₁) (hto : b₂.Extends b') : c.FindsFunctions p callback b b' o := by
  obtain ⟨n, hn, hsite, hv⟩ := h
  refine ⟨n, nodeIn?_mono (entityOf_isPlain p callback) hto.pag hn, hto.pag.site hsite, ?_⟩
  intro g fn hholds hbody hg
  exact (hv (hholds.mono hfrom) hbody (hfrom.pag.pts hg)).mono hfrom.contexts hto

/-- It makes no difference which callee was found. -/
theorem ModelCall.FindsFunctions.of_callee {callee : MethodSig}
    (h : ({ c with callee } : ModelCall).FindsFunctions p callback b b' o) :
    c.FindsFunctions p callback b b' o := by
  obtain ⟨n, hn, hsite, hv⟩ := h
  refine ⟨n, hn, hsite, fun hholds hbody hg => ?_⟩
  have hvisits := hv hholds hbody hg
  exact ⟨hvisits.container, hvisits.called⟩

/-- From `b` to `b'` a function object has reached the callback: it was called on the containers
that are at the receiver. -/
def ModelCall.FindsContainers (p : Program) (c : ModelCall) (receiver : ValueId) (b b' : Builder)
    (g : NodeId) (fn : FunctionObject) : Prop :=
  ∃ n, nodeIn? b'.pag c.callerCid (entityOf p receiver) = some n ∧
    ∀ {o}, b.pag.isContainer o = true → o ∈ b.pag.ptsOf n → c.Visits p b b' o g fn

theorem ModelCall.FindsContainers.mono (h : c.FindsContainers p receiver b₁ b₂ g fn)
    (hfrom : b.Extends b₁) (hto : b₂.Extends b') : c.FindsContainers p receiver b b' g fn := by
  obtain ⟨n, hn, hv⟩ := h
  refine ⟨n, nodeIn?_mono (entityOf_isPlain p receiver) hto.pag hn, fun {o} hcontainer ho => ?_⟩
  have hcontainer₁ := (hfrom.pag.isContainer (Pag.lt_of_isContainer hcontainer)).trans hcontainer
  exact (hv hcontainer₁ (hfrom.pag.pts ho)).mono hfrom.contexts hto

/-- A call of a method that visits elements, with a local as receiver and a local as callback. The
callee that is found has the same name. -/
structure ModelCall.IsVisit (p : Program) (c : ModelCall) (receiver callback : ValueId) :
    Prop where
  ofProgram : c.OfProgram p
  method : c.invoke.method.name ∈ Container.visitors
  callee : c.callee.name = c.invoke.method.name
  receiver : c.invoke.base = some receiver
  callback : c.localArg? p 0 = some callback

namespace Library.Container

theorem fieldNode_found {key : FieldKey} {cloneOf : Option NodeId} (ho : o < b.pag.nodes.size) :
    Spec (Actions p) (fieldNode o key cloneOf) b fun n b' => b'.pag.fieldNode? o key = some n :=
  ⟨fieldNode_actions b, fieldNode?_run ho key cloneOf⟩

theorem visit_visits (h : b.HasFunctionObject g fn) (hbody : p.hasBody fn.method = true)
    (ho : b.pag.isContainer o = true) (helem : b.pag.fieldNode? o .element = some elem) :
    TrySpec (Actions p) (visit p enqueue c elem g) b fun _ b' => c.Visits p b b' o g fn := by
  have hlt := Pag.lt_of_isContainer ho
  unfold visit
  refine .bind (.lift (functionAt?_holds h)) ?_
  rintro _ _ - ⟨rfl, rfl⟩
  refine .bind (.lift (functionCallee_holds h)) fun callee b₁ h₁ hm => ?_
  refine (callThrough_gets hm hbody).mono fun _ b₂ h₂ ⟨hcalls, cid, hcontext, hgets⟩ => ?_
  have hg := h₁.extends.pag.trans h₂.extends.pag
  refine ⟨(hg.isContainer hlt).trans ho, callee, elem, cid, h₂.extends.graph.method hm, hcalls,
    hg.fieldNode? hlt helem, hcontext.mono h₁.extends.contexts .rfl, ?_⟩
  exact hgets _ (List.mem_append_right _ List.mem_cons_self)
    (h₁.extends.pag.lt (Pag.lt_of_fieldNode? helem))

/-- The argument is watched from now on, and the functions that are there visit the container. -/
theorem visitElements_visits (hc : c.IsVisit p receiver callback)
    (ho : b.pag.isContainer o = true) (helem : b.pag.fieldNode? o .element = some elem) :
    TrySpec (Actions p) (do
      if visitors.contains c.invoke.method.name then
        if let some n ← argNode? p c 0 then
          discard (addSite n { stmt := c.stmt, role := .arg 0 })
          ((← get).pag.ptsOf n).forM (visit p enqueue c elem) : TryBuild Unit) b fun _ b' =>
      c.FindsFunctions p callback b b' o := by
  have harg : Spec (Actions p) (argNode? p c 0) b fun answer b' => ∃ n, answer = some n ∧
      nodeIn? b'.pag c.callerCid (entityOf p callback) = some n := by
    unfold argNode?
    rw [hc.callback]
    exact .map ((valueNode_found (ModelCall.not_onlyAssigned_localArg hc.callback)).mono
      fun n _ _ hn => ⟨n, rfl, hn⟩)
  rw [if_pos (List.contains_iff_mem.2 hc.method)]
  refine .bind (.lift harg) ?_
  rintro _ b₁ h₁ ⟨n, rfl, hn⟩
  have hsite : Spec (Actions p) (discard (addSite n { stmt := c.stmt, role := .arg 0 })) b₁
      fun _ b' => ⟨c.stmt, .arg 0⟩ ∈ b'.pag.sitesOf n :=
    .discard ⟨addSite_actions b₁, (addSite_spec (p := p) (lt_of_nodeIn? hn)).2⟩
  refine .bind (.lift hsite) fun _ b₂ h₂ hwatched => .get_bind ?_
  have h₀₂ : b.Extends b₂ := h₁.extends.trans h₂.extends
  have hlt := Pag.lt_of_isContainer ho
  have hloop : TrySpec (Actions p) ((b₂.pag.ptsOf n).forM (visit p enqueue c elem)) b₂ fun _ b' =>
      ∀ g ∈ b₂.pag.ptsOf n, ∀ fn, b.HasFunctionObject g fn → p.hasBody fn.method = true →
        c.Visits p b b' o g fn := by
    refine .forM ?_ fun g _ b₃ h₃ => ?_
    · exact fun g b₃ b₄ h' hv fn h hbody => (hv fn h hbody).mono .rfl h'.extends
    · by_cases hg : ∃ fn, b.HasFunctionObject g fn ∧ p.hasBody fn.method = true
      · obtain ⟨fn, h, hbody⟩ := hg
        have h₀₃ := h₀₂.trans h₃.extends
        refine (visit_visits (h.mono h₀₃) hbody ((h₀₃.pag.isContainer hlt).trans ho)
          (h₀₃.pag.fieldNode? hlt helem)).mono fun _ b₄ _ hv fn' h' _ => ?_
        cases h.function?.symm.trans h'.function?
        exact hv.mono h₀₃.contexts .rfl
      · -- What is no function object, or one without a body, is not called.
        exact (visit_actions enqueue_byActions).spec.mono fun _ _ _ _ fn h hbody =>
          absurd ⟨fn, h, hbody⟩ hg
  refine hloop.mono fun _ b₃ h₃ hv => ?_
  have hplain := entityOf_isPlain p callback
  refine ⟨n, nodeIn?_mono hplain (h₂.extends.pag.trans h₃.extends.pag) hn,
    h₃.extends.pag.site hwatched, fun h hbody hg => hv _ (h₀₂.pag.pts hg) _ h hbody⟩

/-- What a container leads to that reaches the receiver. -/
theorem onContainer_visits (hc : c.IsVisit p receiver callback)
    (ho : b.pag.isContainer o = true) : TrySpec (Actions p) (onContainer p enqueue c o) b
      fun _ b' => c.FindsFunctions p callback b b' o := by
  have hlt := Pag.lt_of_isContainer ho
  -- What is stored and what the result is makes no difference here.
  have finish : ∀ {b₁ elem}, b.Extends b₁ → b₁.pag.fieldNode? o .element = some elem →
      TrySpec (Actions p) (do
        if visitors.contains c.invoke.method.name then
          if let some n ← argNode? p c 0 then
            discard (addSite n { stmt := c.stmt, role := .arg 0 })
            ((← get).pag.ptsOf n).forM (visit p enqueue c elem) : TryBuild Unit) b₁ fun _ b' =>
        c.FindsFunctions p callback b b' o := fun h₁ helem =>
    (visitElements_visits hc ((h₁.pag.isContainer hlt).trans ho) helem).mono
      fun _ _ _ hfinds => hfinds.mono h₁ .rfl
  unfold onContainer
  refine .bind (.lift (fieldNode_found hlt)) fun elem b₁ h₁ helem => ?_
  refine .seq store_actions.spec fun _ b₂ h₂ => ?_
  have h₀₂ := h₁.extends.trans h₂.extends
  replace helem := h₂.extends.pag.fieldNode? (h₁.extends.pag.lt hlt) helem
  dsimp only
  split
  · rename_i v hv
    have hresult : Guarantees (Actions p) (giveResult p c elem v) :=
      giveResult_actions hc.ofProgram (hc.ofProgram.not_onlyAssigned_result hv)
    refine .seq (.lift hresult.spec) fun _ b₃ h₃ => ?_
    have hg := h₀₂.pag
    exact finish (h₀₂.trans h₃.extends) (h₃.extends.pag.fieldNode? (hg.lt hlt) helem)
  · exact finish h₀₂ helem

/-- What a function leads to that reaches the argument. -/
theorem onCallback_visits (hc : c.IsVisit p receiver callback) (h : b.HasFunctionObject g fn)
    (hbody : p.hasBody fn.method = true) : TrySpec (Actions p) (onCallback p enqueue c receiver g) b
      fun _ b' => c.FindsContainers p receiver b b' g fn := by
  unfold onCallback
  refine .bind (.lift (valueNode_found (hc.ofProgram.not_onlyAssigned_base hc.receiver))) ?_
  refine fun n b₁ h₁ hn => .get_bind ?_
  dsimp only
  refine .bind (P := fun _ b' => ∀ x ∈ (b₁.pag.ptsOf n).filter b₁.pag.isContainer,
    c.Visits p b b' x g fn) (.forM ?_ fun x hx b₂ h₂ => ?_) ?_
  · exact fun _ _ _ hactions hv => hv.mono .rfl hactions.extends
  · have hcontainer := (List.mem_filter.1 hx).2
    have hlt := Pag.lt_of_isContainer hcontainer
    refine .bind (.lift (fieldNode_found (h₂.extends.pag.lt hlt))) fun elem b₃ h₃ helem => ?_
    have h₁₃ := h₂.extends.trans h₃.extends
    have h₀₃ := h₁.extends.trans h₁₃
    refine (visit_visits (h.mono h₀₃) hbody ((h₁₃.pag.isContainer hlt).trans hcontainer)
      helem).mono fun _ b₄ _ hv => ?_
    exact hv.mono h₀₃.contexts .rfl
  · rintro _ b₂ h₂ hv
    have hn₂ := nodeIn?_mono (entityOf_isPlain p receiver) h₂.extends.pag hn
    refine .pure ⟨n, hn₂, fun hcontainer ho => ?_⟩
    refine hv _ (List.mem_filter.2 ⟨h₁.extends.pag.pts ho, ?_⟩)
    exact (h₁.extends.pag.isContainer (Pag.lt_of_isContainer hcontainer)).trans hcontainer

theorem onObject_container (hc : c.IsVisit p receiver callback)
    (ho : b.pag.isContainer o = true) {role : SiteRole} (hrole : ∀ index, role ≠ .arg index) :
    TrySpec (Actions p) (model.onObject p enqueue c role o) b fun _ b' =>
      c.FindsFunctions p callback b b' o := by
  have hcontainer : TrySpec (Actions p) (do
      if (← get).pag.isContainer o then
        onContainer p enqueue c o
        return true
      else return false : TryBuild Bool) b fun _ b' => c.FindsFunctions p callback b b' o := by
    refine .get_bind ?_
    rw [if_pos ho]
    exact .bind (onContainer_visits hc ho) fun _ _ _ hfinds => .pure hfinds
  unfold model
  dsimp only
  rw [if_neg (by simp [isContainerMethod, hc.method])]
  cases role with
  | arg index => exact absurd rfl (hrole index)
  | receiver => exact hcontainer
  | unknown => exact hcontainer

theorem onObject_function (hc : c.IsVisit p receiver callback) (h : b.HasFunctionObject g fn)
    (hbody : p.hasBody fn.method = true) :
    TrySpec (Actions p) (model.onObject p enqueue c (.arg 0) g) b fun _ b' =>
      c.FindsContainers p receiver b b' g fn := by
  unfold model
  dsimp only
  rw [if_neg (by simp [isContainerMethod, hc.method]), hc.receiver]
  dsimp only
  rw [if_pos (List.contains_iff_mem.2 hc.method)]
  exact onCallback_visits hc h hbody

end Library.Container

/-! ## Other models -/

/-- The methods that visit elements are none of those that the models asked before know. -/
theorem Library.not_known {name : String} (h : name ∈ Container.visitors) :
    (name ∉ Storage.writers ∧ name ∉ Storage.readers) ∧ (name ∉ Worker.posters ∧
      name ∉ Worker.handlers) ∧ name ∉ ["call", "apply", "bind", "execute", "constructor"] := by
  revert name
  decide

namespace LibraryModel

/-- The model leaves the call to those that are asked after it. -/
def Declines (p : Program) (m : LibraryModel) (c : ModelCall) : Prop :=
  ∀ {role obj b}, TrySpec (Actions p) (m.onObject p enqueue c role obj) b fun taken b' =>
    taken = false ∧ b' = b

end LibraryModel

namespace ModelCall.IsVisit

variable (hc : c.IsVisit p receiver callback)
include hc

theorem storage_declines : Storage.model.Declines p c := by
  intro role obj b
  obtain ⟨hwriter, hreader⟩ := (Library.not_known hc.method).1
  rw [← hc.callee] at hwriter hreader
  have haccess : ∀ store, Spec (Actions p) (Storage.access p c store) b fun taken b' =>
      taken = false ∧ b' = b := by
    intro store
    unfold Storage.access
    dsimp only
    rw [if_pos (by simp [hwriter, hreader])]
    exact .pure ⟨rfl, rfl⟩
  refine .get_bind ?_
  split
  · exact .pure ⟨rfl, rfl⟩
  · exact .pure ⟨rfl, rfl⟩
  · exact .lift (haccess _)

theorem function_declines : Function.model.Declines p c := by
  intro role obj b
  have hname := (Library.not_known hc.method).2.2
  refine .get_bind ?_
  split
  · exact .pure ⟨rfl, rfl⟩
  · exact .pure ⟨rfl, rfl⟩
  · split
    · unfold Function.onFunction
      split
      · rename_i heq
        exact absurd heq (by grind)
      · rename_i heq
        exact absurd heq (by grind)
      · rename_i heq
        exact absurd heq (by grind)
      · exact .pure ⟨rfl, rfl⟩
    · exact .pure ⟨rfl, rfl⟩

theorem taskPool_declines : TaskPool.model.Declines p c := by
  intro role obj b
  have hname := (Library.not_known hc.method).2.2
  have hno : (!TaskPool.isExecute c.invoke.method && !TaskPool.isTask c.invoke.method) = true := by
    simp only [TaskPool.isExecute, TaskPool.isTask, MethodSig.isConstructor, Naming.constructor]
    grind
  unfold TaskPool.model
  dsimp only
  rw [if_pos hno]
  exact .pure ⟨rfl, rfl⟩

theorem worker_declines : Worker.model.Declines p c := by
  intro role obj b
  obtain ⟨hposter, hhandler⟩ := (Library.not_known hc.method).2.1
  unfold Worker.model
  dsimp only
  rw [if_pos (by simp [Worker.isWorkerCall, hposter, hhandler])]
  exact .pure ⟨rfl, rfl⟩

/-- So the model of containers is the first that has something to say. -/
theorem runOnObject {Q : Builder → Prop} {role : SiteRole} {obj : NodeId}
    (stable : ∀ {b₁ b₂}, Builder.Extends b₁ b₂ → Q b₁ → Q b₂)
    (hrun : TrySpec (Actions p) (Container.model.onObject p enqueue c role obj) b fun _ => Q) :
    TrySpec (Actions p) (LibraryModel.runOnObject p enqueue c role obj LibraryModel.standard) b
      fun _ => Q := by
  refine .bind hc.storage_declines ?_
  rintro _ _ - ⟨rfl, rfl⟩
  refine .bind hc.function_declines ?_
  rintro _ _ - ⟨rfl, rfl⟩
  refine .bind hc.taskPool_declines ?_
  rintro _ _ - ⟨rfl, rfl⟩
  refine .bind hc.worker_declines ?_
  rintro _ _ - ⟨rfl, rfl⟩
  refine .bind hrun fun taken b₁ _ hq => ?_
  split
  · exact .pure hq
  · have hsdk : GuaranteesOn .all (Actions p)
      (LibraryModel.runOnObject p enqueue c role obj [Sdk.model]) :=
      LibraryModel.runOnObject_actions (by simpa using Sdk.model_byActions)
        enqueue_byActions hc.ofProgram
    exact hsdk.spec.mono fun _ _ h₂ _ => stable h₂.extends hq

end ModelCall.IsVisit

end PointsTo
