import PointsTo.Proofs.Actions.Callbacks

/-!
# Arguments that are fixed

A function object is a function that the program names, or what a chain of calls of `bind` makes of
one (`Program.Binds`). It holds exactly the arguments that the chain has passed, with their
positions in the whole of it (`Program.Fixed`). So whoever calls it only has to pass on what it
holds, and to count on from there with the arguments that are new.
-/

namespace PointsTo

open Builder (Action Actions CallContext)
open Build

variable {p : Program} {g g' : Pag} {b b' : Builder} {n obj : NodeId} {m : MethodSig}
  {fn : FunctionObject} {calls : List PassedList} {c : ModelCall} {cid : ContextId}

/-! ## Chains of `bind` -/

namespace Program

/-- The function object at the node was made of a function of the program by calls of `bind`, with
these arguments. Each of them was made in the context that its function object is in. -/
inductive Binds (p : Program) (g : Pag) : NodeId → MethodSig → List PassedList → Prop where
  | literal {n : NodeId} {x : Node} {fn : FunctionObject} {v : ValueId} {m : MethodSig}
      (node : g.node? n = some x) (kind : x.kind = .function fn) (entity : x.entity = .value v)
      (value : p.value? v = some (.functionRef m)) : Binds p g n m []
  | bind {n target : NodeId} {x : Node} {fn : FunctionObject} {stmt : StmtId} {i : Invoke}
      {m : MethodSig} {calls : List PassedList} (of : Binds p g target m calls)
      (node : g.node? n = some x) (kind : x.kind = .function fn)
      (entity : x.entity = .boundFunction stmt target) (invoke : p.invokeOf? stmt = some i) :
    Binds p g n m (calls ++ [(x.cid, i.args)])

/-- The arguments that calls of `bind` fix. The first argument of each is a receiver. -/
def fixedArgs (calls : List PassedList) : List PassedValue :=
  calls.flatMap fun call => (call.2.drop 1).map (call.1, ·)

/-- All arguments of a call in the context: those that are fixed, and then its own. -/
abbrev allArgs (calls : List PassedList) (cid : ContextId) (own : List ValueId) :
    List PassedValue :=
  fixedArgs calls ++ own.map (cid, ·)

/-- The receiver that calls of `bind` fix: the first one that is a local. -/
def fixedThis? (p : Program) (calls : List PassedList) : Option PassedValue :=
  calls.findSome? p.firstLocal?

/-- The function object holds exactly what calls of `bind` fix. -/
structure Fixed (p : Program) (g : Pag) (m : MethodSig) (calls : List PassedList)
    (fn : FunctionObject) : Prop where
  method : fn.method = m
  args : p.Passes g (fixedArgs calls) 0 fn.boundArgs
  offset : fn.argOffset = (fixedArgs calls).length
  this : Option.Rel (p.NodeOf g) (p.fixedThis? calls) fn.boundThis

theorem fixedArgs_concat (calls : List PassedList) (call : PassedList) :
    fixedArgs (calls ++ [call]) = fixedArgs calls ++ (call.2.drop 1).map (call.1, ·) := by
  simp [fixedArgs]

theorem fixedThis?_concat (calls : List PassedList) (call : PassedList) :
    p.fixedThis? (calls ++ [call]) = (p.fixedThis? calls).or (p.firstLocal? call) := by
  simp [fixedThis?]

/-- A receiver that was fixed once stays fixed. -/
theorem FixesThis.concat {call : PassedList} {before after : Option NodeId}
    (h : Option.Rel (p.NodeOf g) (p.fixedThis? calls) before)
    (hfixes : p.FixesThis g call before after) :
    Option.Rel (p.NodeOf g) (p.fixedThis? (calls ++ [call])) after := by
  rw [fixedThis?_concat]
  generalize p.fixedThis? calls = x at h ⊢
  cases h with
  | some hn =>
    cases (show after = some _ from hfixes)
    exact .some hn
  | none => exact hfixes

theorem Fixed.mono (h : p.Fixed g m calls fn) (hg : g.Extends g') : p.Fixed g' m calls fn where
  method := h.method
  args := h.args.mono hg
  offset := h.offset
  this := rel_nodeOf_mono h.this hg

/-- What is held was held before, if it was there before. -/
theorem Fixed.of_extends (h : p.Fixed g' m calls fn) (hg : g.Extends g')
    (hthis : ∀ k, fn.boundThis = some k → k < g.nodes.size)
    (hargs : ∀ arg ∈ fn.boundArgs, arg.1 < g.nodes.size) : p.Fixed g m calls fn where
  method := h.method
  args := h.args.of_extends hg hargs
  offset := h.offset
  this := by
    have hrel := h.this
    generalize p.fixedThis? calls = x at hrel ⊢
    generalize fn.boundThis = k at hthis hrel ⊢
    cases hrel with
    | some hn => exact .some (hn.of_extends hg (hthis _ rfl))
    | none => exact .none

end Program

open Program

/-! ## Every function object is one -/

/-- What the function object holds was there before the node. -/
structure FunctionObject.HoldsBefore (fn : FunctionObject) (n : NodeId) : Prop where
  this : ∀ k, fn.boundThis = some k → k < n
  args : ∀ arg ∈ fn.boundArgs, arg.1 < n

/-- Every function object is as it was made, and comes after what it is made of. -/
structure Pag.FunctionsAsMade (p : Program) (g : Pag) : Prop where
  made : ∀ {n x fn}, g.node? n = some x → x.kind = .function fn →
    p.MakesFunction g x.cid x.entity fn
  older : ∀ {n x fn stmt target}, g.node? n = some x → x.kind = .function fn →
    x.entity = .boundFunction stmt target → target < n
  holds : ∀ {n fn}, g.function? n = some fn → fn.HoldsBefore n

/-- No node is new. -/
theorem Pag.FunctionsAsMade.of_size (h : g.FunctionsAsMade p) (hg : g.Extends g')
    (size : g'.nodes.size = g.nodes.size) : g'.FunctionsAsMade p where
  made {n x fn} hx hk := by
    obtain ⟨y, hy, hgrows⟩ := hg.back (size ▸ Pag.node?_lt hx) hx
    rw [hgrows.cid, hgrows.entity]
    exact (h.made hy (hgrows.kind ▸ hk)).mono hg
  older {n x fn stmt target} hx hk he := by
    obtain ⟨y, hy, hgrows⟩ := hg.back (size ▸ Pag.node?_lt hx) hx
    exact h.older hy (hgrows.kind ▸ hk) (hgrows.entity ▸ he)
  holds {n fn} hfn := by
    have hn : n < g.nodes.size := size ▸ Pag.lt_of_function? (Option.isSome_of_eq_some hfn)
    exact h.holds ((Pag.function?_congr hg hn).symm.trans hfn)

/-- What is made holds nodes that are there. -/
theorem Program.MakesFunction.holdsBefore {e : Entity} (h : p.MakesFunction g cid e fn)
    (hg : g.FunctionsAsMade p) : fn.HoldsBefore g.nodes.size := by
  cases h with
  | literal => exact ⟨nofun, fun _ harg => absurd harg List.not_mem_nil⟩
  | @bound stmt target i of boundThis more func invoke hof this args =>
    have hbefore := hg.holds hof
    have hlt := Pag.lt_of_function? (Option.isSome_of_eq_some hof)
    refine ⟨fun k hk => ?_, fun arg harg => ?_⟩
    · cases hthis : of.boundThis with
      | some k' =>
        rw [hthis] at this
        rw [show boundThis = some k' from this] at hk
        cases hk
        exact Nat.lt_trans (hbefore.this _ hthis) hlt
      | none =>
        rw [hthis, show boundThis = some k from hk] at this
        unfold FixesThis at this
        generalize p.firstLocal? (cid, i.args) = x at this
        cases this with
        | some hn => exact lt_of_nodeIn? hn
    · rcases List.mem_append.1 harg with harg | harg
      · exact Nat.lt_trans (hbefore.args arg harg) hlt
      · exact args.lt_of_mem harg

theorem Pag.FunctionsAsMade.addNode (h : g.FunctionsAsMade p) {e : Entity} {kind : NodeKind}
    (hmade : ∀ fn, kind = .function fn → p.MakesFunction g cid e fn) :
    (g.addNode cid e kind).2.FunctionsAsMade p where
  made {n x fn} hx hk := by
    have hg := g.addNode_extends cid e kind
    rcases Pag.node?_addNode hx with hx | ⟨-, rfl⟩
    · exact (h.made hx hk).mono hg
    · exact (hmade fn hk).mono hg
  older {n x fn stmt target} hx hk he := by
    rcases Pag.node?_addNode hx with hx | ⟨rfl, rfl⟩
    · exact h.older hx hk he
    · have hfashions := hmade fn hk
      rw [show e = .boundFunction stmt target from he] at hfashions
      cases hfashions with
      | bound func invoke of this args => exact Pag.lt_of_function? (Option.isSome_of_eq_some of)
  holds {n fn} hfn := by
    obtain ⟨x, hx, hk⟩ := Pag.exists_node_of_function? hfn
    rcases Pag.node?_addNode hx with hx | ⟨rfl, rfl⟩
    · exact h.holds (by simp [Pag.function?, hx, hk, NodeKind.function?])
    · exact (hmade fn hk).holdsBefore h

theorem Builder.Action.functionsAsMade (h : Action p b b') (hb : b.pag.FunctionsAsMade p) :
    b'.pag.FunctionsAsMade p := by
  cases h with
  | node cid e kind _ function => exact hb.addNode function
  | draw _ _ _ _ extends_ size => exact hb.of_size extends_ size
  | graph | summary | answer | unhandled | ask | takeUp | drop => exact hb

theorem Builder.Actions.functionsAsMade (h : Actions p b b') (hb : b.pag.FunctionsAsMade p) :
    b'.pag.FunctionsAsMade p := by
  induction h with
  | refl => exact hb
  | tail _ hact ih => exact hact.functionsAsMade ih

theorem Builder.functionsAsMade_ofGraph {graph : CallGraph} {backing : Backing}
    {sensitivity : Sensitivity} {k : Nat} :
    (ofGraph graph backing sensitivity k).pag.FunctionsAsMade p where
  made hx := by simp [ofGraph, Pag.node?] at hx
  older hx := by simp [ofGraph, Pag.node?] at hx
  holds hfn := by simp [ofGraph, Pag.function?, Pag.node?] at hfn

namespace Pag.FunctionsAsMade

variable (h : g.FunctionsAsMade p)
include h

/-- By induction on the number of the node: what `bind` makes comes later. -/
theorem exists_binds (hfn : g.function? n = some fn) : ∃ m calls, p.Binds g n m calls := by
  induction n using Nat.strong_induction_on generalizing fn with
  | h n ih =>
    obtain ⟨x, hx, hkind⟩ := Pag.exists_node_of_function? hfn
    have hmade := h.made hx hkind
    have holder := @h.older n x fn
    generalize he : x.entity = e at hmade holder
    cases hmade with
    | literal func hv => exact ⟨_, [], .literal hx hkind he hv⟩
    | bound func invoke of this args =>
      obtain ⟨m, calls, hbinds⟩ := ih _ (holder hx hkind rfl) of
      exact ⟨m, _, .bind hbinds hx hkind he invoke⟩

/-- By induction on the chain. -/
theorem fixed (hbinds : p.Binds g n m calls) :
    ∃ fn, g.function? n = some fn ∧ p.Fixed g m calls fn := by
  induction hbinds with
  | @literal n x fn v m hx hkind he hv =>
    refine ⟨fn, by simp [Pag.function?, hx, hkind, NodeKind.function?], ?_⟩
    have hmade := h.made hx hkind
    rw [he] at hmade
    cases hmade with
    | literal func hv' =>
      cases hv.symm.trans hv'
      exact ⟨rfl, .nil, rfl, .none⟩
  | @bind n target x fn stmt i m calls _ hx hkind he hi ih =>
    refine ⟨fn, by simp [Pag.function?, hx, hkind, NodeKind.function?], ?_⟩
    obtain ⟨of, hof, hfixed⟩ := ih
    have hmade := h.made hx hkind
    rw [he] at hmade
    cases hmade with
    | bound func invoke of' this args =>
      cases hi.symm.trans invoke
      cases hof.symm.trans of'
      refine ⟨hfixed.method, ?_, ?_, this.concat hfixed.this⟩
      · rw [fixedArgs_concat]
        refine hfixed.args.append ?_
        rw [Nat.zero_add, ← hfixed.offset]
        exact args
      · rw [fixedArgs_concat, List.length_append, List.length_map, ← hfixed.offset]

end Pag.FunctionsAsMade

/-! ## What a call passes -/

/-- What the function object holds, and then what the call passes. -/
theorem Program.Fixed.passes (h : p.Fixed g m calls fn) {xs : List PassedValue}
    {args : List (NodeId × Nat)} (hargs : p.Passes g xs fn.argOffset args) :
    p.Passes g (fixedArgs calls ++ xs) 0 (fn.boundArgs ++ args) := by
  refine h.args.append ?_
  rw [Nat.zero_add, ← h.offset]
  exact hargs

/-- In the context, the method gets each of the values that is a local as the argument at its
position. -/
def Program.Receives (p : Program) (g : Pag) (m : MethodSig) (cid : ContextId)
    (xs : List PassedValue) : Prop :=
  ∀ i x param, xs[i]? = some x → p.isLocal x.2 = true → (p.params m).lookup i = some param →
    ∃ src dst, p.NodeOf g x src ∧ p.NodeOf g (cid, param) dst ∧ ⟨.copy, src, dst⟩ ∈ g.edges

theorem Program.Receives.mono {xs : List PassedValue} (h : p.Receives g m cid xs)
    (hg : g.Extends g') : p.Receives g' m cid xs := by
  intro i x param hx hlocal hparam
  obtain ⟨src, dst, hsrc, hdst, he⟩ := h i x param hx hlocal hparam
  exact ⟨src, dst, hsrc.mono hg, hdst.mono hg, hg.edge he⟩

theorem Program.Passes.receives {xs : List PassedValue} {args : List (NodeId × Nat)}
    (h : p.Passes g xs 0 args) (hg : g.Extends g')
    (hgets : ∀ arg ∈ args, arg.1 < g.nodes.size → p.Gets g' m cid arg) :
    p.Receives g' m cid xs := by
  intro i x param hx hlocal hparam
  obtain ⟨src, hsrc, hmem⟩ := h.exists_mem hx hlocal
  rw [Nat.zero_add] at hmem
  obtain ⟨dst, hdst, he⟩ := hgets _ hmem (h.lt_of_mem hmem) param hparam
  exact ⟨src, dst, hsrc.mono hg, hdst, he⟩

/-- From `b` to `b'` the method was called. It is asked for in the context of the call, and gets
what is passed there. -/
def ModelCall.Passes (p : Program) (c : ModelCall) (b b' : Builder) (obj : NodeId) (m : MethodSig)
    (xs : List PassedValue) : Prop :=
  ∃ callee cid, b'.graph.methodOf? callee = some m ∧ b'.Requested callee cid ∧
    CallContext b b' c.callerCid c.site (some obj) callee cid ∧ p.Receives b'.pag m cid xs

theorem ModelCall.Passes.mono {b₁ b₂ : Builder} {xs : List PassedValue}
    (h : c.Passes p b₁ b₂ obj m xs) (hfrom : b.contexts.Extends b₁.contexts)
    (hto : b₂.Extends b') : c.Passes p b b' obj m xs := by
  obtain ⟨callee, cid, hm, hasked, hcontext, hreceives⟩ := h
  exact ⟨callee, cid, hto.graph.method hm, hto.requested hasked, hcontext.mono hfrom hto,
    hreceives.mono hto.pag⟩

namespace Build

/-- From `b` on, the step connects a call of the method that passes exactly these values, and does
nothing else but what comes before. -/
def ConnectsCall (p : Program) (b : Builder) (enter : Enter) (c : ModelCall) (obj : NodeId)
    (m : MethodSig) (xs : List PassedValue) (step : TryBuild Unit) : Prop :=
  ∃ (binding : CallBinding) (b₁ : Builder), Actions p b b₁ ∧
    b₁.graph.methodOf? binding.callee = some m ∧ binding.callerCid = c.callerCid ∧
    binding.site = c.site ∧ binding.contextObj = some obj ∧ p.Passes b₁.pag xs 0 binding.args ∧
    step.run.run b = (discard (connect p enter binding) : TryBuild Unit).run.run b₁

namespace ConnectsCall

variable {enter : Enter} {xs : List PassedValue} {binding : CallBinding}

theorem connect (hm : b.graph.methodOf? binding.callee = some m)
    (hcaller : binding.callerCid = c.callerCid) (hsite : binding.site = c.site)
    (hobj : binding.contextObj = some obj) (hargs : p.Passes b.pag xs 0 binding.args) :
    ConnectsCall p b enter c obj m xs (discard (Build.connect p enter binding)) :=
  ⟨binding, b, refl_of (Actions p) b, hm, hcaller, hsite, hobj, hargs, rfl⟩

/-- What comes before does not fail. -/
theorem bind {α : Type} {step : Build α} {f : α → TryBuild Unit} {Q : α → Builder → Prop}
    (hstep : Spec (Actions p) step b Q)
    (hf : ∀ x b₁, Actions p b b₁ → Q x b₁ → ConnectsCall p b₁ enter c obj m xs (f x)) :
    ConnectsCall p b enter c obj m xs (liftM step >>= f) := by
  obtain ⟨h₁, hq⟩ := hstep
  obtain ⟨binding, b₂, h₂, hm, hcaller, hsite, hobj, hargs, hrun⟩ := hf _ _ h₁ hq
  exact ⟨binding, b₂, trans_of (Actions p) h₁ h₂, hm, hcaller, hsite, hobj, hargs, hrun⟩

theorem seq {α : Type} {step : Build α} {f : α → TryBuild Unit}
    (hstep : Guarantees (Actions p) step)
    (hf : ∀ x b₁, Actions p b b₁ → ConnectsCall p b₁ enter c obj m xs (f x)) :
    ConnectsCall p b enter c obj m xs (liftM step >>= f) :=
  .bind hstep.spec fun x b₁ h₁ _ => hf x b₁ h₁

theorem callThrough (hm : b.graph.methodOf? binding.callee = some m)
    (hcaller : binding.callerCid = c.callerCid) (hsite : binding.site = c.site)
    (hobj : binding.contextObj = some obj) (hargs : p.Passes b.pag xs 0 binding.args) :
    ConnectsCall p b enter c obj m xs (Build.callThrough p enter c binding) :=
  .seq addCall_actions fun _ _ h₁ =>
    .connect (h₁.extends.graph.method hm) hcaller hsite hobj (hargs.mono h₁.extends.pag)

/-- If the call is connected, the method receives what is passed. -/
theorem passes {step : TryBuild Unit} (h : ConnectsCall p b enter c obj m xs step)
    (henter : enter.ByActions p) (hbody : p.hasBody m = true) :
    TrySpec (Actions p) step b fun _ b' => c.Passes p b b' obj m xs := by
  obtain ⟨binding, b₁, h₁, hm, hcaller, hsite, hobj, hargs, heq⟩ := h
  refine .of_run_eq h₁ heq (.discard ?_)
  have hconnect := connect_gets (K := fun cid b' => b'.Requested binding.callee cid ∧
      CallContext b₁ b' binding.callerCid binding.site binding.contextObj binding.callee cid)
    (fun h hk => ⟨h.requested hk.1, hk.2.mono .rfl h⟩) (henter binding b₁) hm hbody
  refine hconnect.mono fun _ b₂ h₂ ⟨cid, ⟨hasked, hcontext⟩, hgets⟩ => ?_
  rw [hcaller, hsite, hobj] at hcontext
  exact ⟨binding.callee, cid, h₂.extends.graph.method hm, hasked,
    hcontext.mono h₁.extends.contexts .rfl, hargs.receives h₂.extends.pag hgets⟩

end ConnectsCall

end Build

namespace Library

variable {enter : Enter}

/-- What is passed is what the function object holds and then the arguments after the first. -/
theorem Function.invoke_connectsCall (hc : c.OfProgram p) (h : b.HasFunctionObject obj fn)
    (hfixed : p.Fixed b.pag m calls fn) :
    ConnectsCall p b enter c obj m (allArgs calls c.callerCid (c.invoke.args.drop 1))
      (Function.invoke p enter c obj fn cid false) := by
  unfold Function.invoke
  refine .bind (functionCallee_holds h) fun callee b₁ h₁ hm => ?_
  refine .seq receiver_actions fun thisSrc b₂ h₂ => .seq .pure fun spread b₃ h₃ => ?_
  refine .bind (argNodes_passes _ _) fun rest b₄ h₄ hrest => ?_
  refine .seq (resultNode?_actions hc) fun result b₅ h₅ => .callThrough ?_ rfl rfl rfl ?_
  · have h₁₅ := h₂.extends.trans (h₃.extends.trans (h₄.extends.trans h₅.extends))
    exact hfixed.method ▸ h₁₅.graph.method hm
  · have h₀₄ := h₁.extends.trans (h₂.extends.trans (h₃.extends.trans h₄.extends))
    exact ((hfixed.mono h₀₄.pag).passes hrest).mono h₅.extends.pag

theorem TaskPool.run_connectsCall (hc : c.OfProgram p) (h : b.HasFunctionObject obj fn)
    (hfixed : p.Fixed b.pag m calls fn) :
    ConnectsCall p b enter c obj m (allArgs calls c.callerCid (c.invoke.args.drop 1))
      (TaskPool.run p enter c obj fn) := by
  unfold TaskPool.run
  refine .bind (functionCallee_holds h) fun callee b₁ h₁ hm => ?_
  refine .bind (argNodes_passes _ _) fun rest b₂ h₂ hrest => ?_
  -- The result makes no difference here.
  have finish : ∀ result b₃, Actions p b₂ b₃ → ConnectsCall p b₃ enter c obj m _
      (callThrough p enter c
        { c.bindingOf callee obj fn with args := fn.boundArgs ++ rest, result }) :=
    fun result b₃ h₃ => .callThrough
      (hfixed.method ▸ (h₂.extends.trans h₃.extends).graph.method hm) rfl rfl rfl
      (((hfixed.mono (h₁.extends.trans h₂.extends).pag).passes hrest).mono h₃.extends.pag)
  dsimp only
  split
  · exact .seq (resultNode?_actions hc) finish
  · exact .seq .pure finish

end Library

end PointsTo
