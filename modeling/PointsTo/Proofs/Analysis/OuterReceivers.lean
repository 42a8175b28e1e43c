import PointsTo.Proofs.Actions.Arrows
import PointsTo.Proofs.Analysis.Closure
import PointsTo.Proofs.Analysis.Driving
import PointsTo.Proofs.Reach

/-!
# The receiver that an arrow function sees

A function object can be called in seven ways. An arrow function that is called through a pointer,
or by `call` or `apply`, sees the receiver of the method that it is written in, as it is in the
context that the function object was made in. If the library calls it, or it is passed to a call
that nobody knows, it sees the receiver that this method has in the context of the caller. That is
another one if the function object was passed on, and need not be the receiver of anything there
(`Analysis.arrows_not_seeing`).
-/

namespace PointsTo

open Builder (Actions)
open Build
open Program (Arrow)
open Program.Arrow

/-- The method is the caller, or calls lead from it to the caller. -/
def CallGraph.LeadsBack (g : CallGraph) (caller : FuncId) (m : MethodSig) : Prop :=
  ∃ f, g.methodOf? f = some m ∧ (f = caller ∨ g.reachable f caller = true)

instance (g : CallGraph) (caller : FuncId) (m : MethodSig) : Decidable (g.LeadsBack caller m) :=
  decidable_of_iff (∃ f < g.nodes.size, g.methodOf? f = some m ∧
    (f = caller ∨ g.reachable f caller = true)) <| by
    refine ⟨fun ⟨f, _, h⟩ => ⟨f, h⟩, fun ⟨f, hm, h⟩ => ⟨f, ?_, hm, h⟩⟩
    obtain ⟨x, hx, -⟩ := Option.map_eq_some_iff.1 hm
    exact (Array.getElem?_eq_some_iff.1 hx).1

theorem CallGraph.LeadsBack.mono {g g' : CallGraph} {caller : FuncId} {m : MethodSig}
    (h : g.LeadsBack caller m) (hg : g.Grows g') : g'.LeadsBack caller m := by
  obtain ⟨f, hm, hback⟩ := h
  exact ⟨f, hg.method hm, hback.imp_right (reachable_mono hg.size hg.links)⟩

namespace Analysis

/-- The ways to call a function object that was made in the context `created`, with the context that
an arrow function gets its receiver from. A call through a pointer is followed only if it does not
lead back, where `g` is the call graph afterwards. -/
inductive CallsObject (s : Setting) (c : ModelCall) (obj : NodeId) (fn : FunctionObject)
    (created : ContextId) (g : CallGraph) : TryAnalysis Unit → ContextId → Prop where
  | pointer (n : NodeId) (straight : ¬g.LeadsBack c.caller fn.method) :
    CallsObject s c obj fn created g (callResolved s c n obj fn.method (some fn)) created
  | function (isApply : Bool) : CallsObject s c obj fn created g
      (build (Library.Function.invoke s.program Build.enqueue c obj fn created isApply)) created
  | element (elem : NodeId) : CallsObject s c obj fn created g
      (build (Library.Container.visit s.program Build.enqueue c elem obj)) c.callerCid
  | task : CallsObject s c obj fn created g
      (build (Library.TaskPool.run s.program Build.enqueue c obj fn)) c.callerCid
  | handler : CallsObject s c obj fn created g
      (build (Library.Worker.run s.program Build.enqueue c obj fn)) c.callerCid
  | library : CallsObject s c obj fn created g
      (build (Library.Sdk.run s.program Build.enqueue c obj fn)) c.callerCid
  | unknown : CallsObject s c obj fn created g (callBack s c obj) c.callerCid

/-- How a call that waits for receivers, pointers or arguments calls a function object that reaches
it, with the context that an arrow function gets its receiver from. -/
inductive CallsArrived (i : Invoke) (caller created : ContextId) (back : Prop) :
    SiteRole → ContextId → Prop where
  | pointer {role : SiteRole} (base : ∀ index, role ≠ .arg index) (kind : i.kind = .pointer)
      (straight : ¬back) : CallsArrived i caller created back role created
  | function {role : SiteRole} (base : ∀ index, role ≠ .arg index) (kind : i.kind ≠ .pointer)
      (name : i.method.name = "call" ∨ i.method.name = "apply") :
    CallsArrived i caller created back role created
  | passed {index : Nat} (task : Library.TaskPool.isExecute i.method = true ∨
      Library.TaskPool.isTask i.method = true → index = 0) :
    CallsArrived i caller created back (.arg index) caller

theorem CallsArrived.imp {i : Invoke} {caller created src : ContextId} {back back' : Prop}
    {role : SiteRole} (h : CallsArrived i caller created back role src) (hback : back' → back) :
    CallsArrived i caller created back' role src := by
  cases h with
  | pointer base kind straight => exact .pointer base kind (straight ∘ hback)
  | function base kind name => exact .function base kind name
  | passed task => exact .passed task

variable {s : Setting} {p : Program} {f : s.program.Arrow} {a a' : Analysis} {c : ModelCall}
  {n obj : NodeId} {fn : FunctionObject} {created : ContextId}

/-! ## The ways to call -/

theorem resolvedBinding_arrow (h : f.Held a.builder obj fn created) (hc : c.OfProgram s.program)
    {callee : FuncId} :
    Spec (Actions s.program) (resolvedBinding s.program c n obj callee (some fn))
      a.builder fun binding _ => binding.callee = callee ∧ binding.callerCid = c.callerCid ∧
        binding.site = c.site ∧ binding.contextObj = some obj ∧
        binding.functionCid = some created := by
  obtain ⟨x, hx, -, rfl⟩ := h.node
  refine .get_bind (.seq (argNodes_actions _ _).spec fun args b₁ _ => ?_)
  refine .seq (resultNode?_actions hc).spec fun result b₂ _ => .pure ⟨rfl, rfl, rfl, rfl, ?_⟩
  show (a.builder.pag.node? obj).map Node.cid = some x.cid
  rw [hx]
  rfl

/-- What is called through a pointer is the function behind it. -/
theorem callResolved_function (s : Setting) (c : ModelCall) (n obj : NodeId) (fn : FunctionObject) :
    callResolved s c n obj fn.method (some fn) = (do
      let callee ← build (functionCallee s.program fn)
      let graph := (← get).builder.graph
      let isRecursive := callee == c.caller || graph.reachable callee c.caller
      countResolved (← build (addCall c.caller callee c.stmt .indirect))
      if !isRecursive then
        build do discard (connect s.program (enterNow s)
          (← resolvedBinding s.program c n obj callee (some fn)))) := by
  unfold callResolved functionCallee
  cases h : fn.func with
  | some callee => simp only [Option.bind_some, h]; rfl
  | none => simp only [Option.bind_some, h]

theorem callResolved_arrow (hs : s.ByActions) (hc : c.OfProgram s.program)
    (h : f.Held a.builder obj fn created) :
    TrySpec (OnBuilder (Actions s.program))
      (callResolved s c n obj fn.method (some fn)) a fun _ a' =>
      ¬a'.builder.graph.LeadsBack c.caller fn.method →
        f.Called a.builder a'.builder c.callerCid c.site obj created := by
  rw [callResolved_function]
  refine .bind (build_onBuilder (.lift (functionCallee_arrow h)))
    fun callee a₁ h₁ hm => .get_bind ?_
  refine .seq (build_onBuilder (.lift addCall_actions.spec)) fun isNew a₂ h₂ => ?_
  refine .bind (countResolved_spec fun a _ => refl_of (Actions s.program) a.builder)
    fun _ a₃ _ hsame => ?_
  have hgrown : a₁.builder.graph.Grows a₃.builder.graph := hsame ▸ (Actions.extends h₂).graph
  split
  · rename_i hstraight
    have h₀₃ : Actions s.program a.builder a₃.builder := hsame ▸ trans_of (Actions s.program) h₁ h₂
    have hconnect : TrySpec (Actions s.program) (do
        discard (connect s.program (enterNow s)
          (← resolvedBinding s.program c n obj callee (some fn))) : TryBuild Unit) a₃.builder
        fun _ b' => f.Called a₃.builder b' c.callerCid c.site obj created := by
      refine .bind (.lift (resolvedBinding_arrow (h.mono h₀₃.extends) hc)) ?_
      rintro binding b₁ h₃ ⟨rfl, hcaller, hsite, hobj, hcid⟩
      refine .discard ((connect_called f hs hobj ?_).mono fun _ b₂ _ hcalled => ?_)
      · exact h₃.extends.graph.method (hgrown.method hm)
      · rw [hcaller, hsite, hcid, Option.getD_some] at hcalled
        exact hcalled.mono h₃.extends.contexts .rfl
    refine (build_onBuilder hconnect).mono fun _ a₄ _ hcalled _ => ?_
    exact hcalled.mono h₀₃.extends.contexts .rfl
  · -- The call was found to lead back, and it still does.
    rename_i hback
    refine .pure fun hstraight => absurd ⟨callee, hgrown.method (h.method ▸ hm), ?_⟩ hstraight
    have hleads : callee = c.caller ∨ a₁.builder.graph.reachable callee c.caller = true := by
      simpa [← or_iff_not_imp_left] using hback
    exact hleads.imp_right (CallGraph.reachable_mono hgrown.size hgrown.links)

theorem callBack_arrow (hs : s.ByActions) (h : f.Held a.builder obj fn created) :
    TrySpec (OnBuilder (Actions s.program)) (callBack s c obj) a fun _ a' =>
      f.Called a.builder a'.builder c.callerCid c.site obj c.callerCid := by
  unfold callBack
  refine .get_bind ?_
  rw [show a.pag.function? obj = some fn from h.function?]
  dsimp only
  refine .bind (build_onBuilder (.lift (functionCallee_arrow h))) fun callee a₁ h₁ hm => ?_
  refine .seq (build_onBuilder (.lift addCall_actions.spec)) fun isNew a₂ h₂ => ?_
  refine .bind (countResolved_spec fun a _ => refl_of (Actions s.program) a.builder)
    fun _ a₃ _ hsame => ?_
  have h₀₃ : Actions s.program a.builder a₃.builder := hsame ▸ trans_of (Actions s.program) h₁ h₂
  have hm₃ : a₃.builder.graph.methodOf? callee = some f.method :=
    hsame ▸ (Actions.extends h₂).graph.method hm
  have hconnect : TrySpec (Actions s.program)
      (discard (connect s.program (enterNow s) (c.bindingOf callee obj fn)) : TryBuild Unit)
      a₃.builder fun _ b' => f.Called a₃.builder b' c.callerCid c.site obj c.callerCid :=
    .discard (connect_called f hs rfl hm₃)
  refine (build_onBuilder hconnect).mono fun _ a₄ _ hcalled => ?_
  exact hcalled.mono h₀₃.extends.contexts .rfl

/-- A call in one of these ways that succeeds has called the arrow function. What the models call
waits to be laid out first. -/
theorem CallsObject.called (hs : s.ByActions) (hc : c.OfProgram s.program)
    (h : f.Held a.builder obj fn created) {step : TryAnalysis Unit} {src : ContextId}
    (hcalls : CallsObject s c obj fn created a'.builder.graph step src)
    (hrun : step.run.run a = (.ok (), a')) {b : Builder} (hb : a'.builder.Extends b)
    (hempty : b.pending = []) : f.Called a.builder b c.callerCid c.site obj src := by
  have hwaits : ∀ {step : TryBuild Unit} {src : ContextId},
      TrySpec (Actions s.program) step a.builder
        (fun _ b' => f.Awaited a.builder b' c.callerCid c.site obj src) →
      (build step).run.run a = (.ok (), a') → f.Called a.builder b c.callerCid c.site obj src :=
    fun hgoes hrun => (((build_onBuilder hgoes).of_run hrun).2.mono .rfl hb).called hempty
  cases hcalls with
  | pointer n straight =>
    exact (((callResolved_arrow hs hc h).of_run hrun).2 straight).mono .rfl hb
  | function isApply => exact hwaits (Library.Function.invoke_arrow hc h) hrun
  | element elem => exact hwaits (Library.Container.visit_arrow h) hrun
  | task => exact hwaits (Library.TaskPool.run_arrow hc h) hrun
  | handler => exact hwaits (Library.Worker.run_arrow h) hrun
  | library => exact hwaits (Library.Sdk.run_arrow h) hrun
  | unknown => exact ((callBack_arrow hs h).of_run hrun).2.mono .rfl hb

/-! ## Calls that wait -/

/-- What the models call is laid out when they are done. -/
theorem runModels_called (hs : s.IsStandard) {b : Builder} {role : SiteRole} {P : Bool → Prop}
    {src : ContextId} (hrun : TrySpec (Actions s.program)
      (LibraryModel.runOnObject s.program Build.enqueue c role obj LibraryModel.standard) b
      fun taken b' => P taken ∧ (taken = true → f.Awaited b b' c.callerCid c.site obj src)) :
    TrySpec (Actions s.program) (runModels s c role obj) b fun taken b' =>
      P taken ∧ (taken = true → f.Called b b' c.callerCid c.site obj src) := by
  have hgoes := runModels_spec hs (fun hretains ⟨htaken, hcalled⟩ =>
    ⟨htaken, fun h => (hcalled h).mono .rfl hretains⟩) hrun
  exact hgoes.mono fun _ b₁ _ ⟨⟨htaken, hcalled⟩, hempty⟩ =>
    ⟨htaken, fun h => (hcalled h).called hempty⟩

/-- If no model takes the call, the function that was passed is called back. -/
theorem argCall_arrow (hs : s.IsStandard) (hc : c.OfProgram s.program)
    (h : f.Held a.builder obj fn created) {index : Nat}
    (htask : Library.TaskPool.isExecute c.invoke.method = true ∨
      Library.TaskPool.isTask c.invoke.method = true → index = 0) :
    TrySpec (OnBuilder (Actions s.program)) (do
      if !(← build (runModels s c (.arg index) obj)) then callBack s c obj) a fun _ a' =>
        f.Called a.builder a'.builder c.callerCid c.site obj c.callerCid := by
  have hmodels := LibraryModel.runOnObject_passed
    (LibraryModel.standard_callsPassed hc htask) h
  have hrun := runModels_called (P := fun _ => True) hs
    (hmodels.mono fun _ _ _ hcalled => ⟨trivial, hcalled⟩)
  refine .bind (build_onBuilder hrun) fun taken a₁ h₁ ⟨_, hcalled⟩ => ?_
  -- It is called either way, and in both from the context of the caller.
  split
  · refine (callBack_arrow hs.byActions (h.mono (Actions.extends h₁))).mono fun _ a₂ _ hcalled => ?_
    exact hcalled.mono (Actions.extends h₁).contexts .rfl
  · rename_i htaken
    exact .pure (hcalled (by simpa using htaken))

/-- A function with a body that reaches a call through a pointer is what is called. -/
theorem run_receiverCall_pointer (hkind : c.invoke.kind = .pointer)
    (hfn : a.pag.function? obj = some fn) (hbody : s.program.hasBody fn.method = true)
    (role : SiteRole) : (receiverCall s c n role obj).run.run a =
      (callResolved s c n obj fn.method (some fn)).run.run a := by
  obtain ⟨x, hx, hk⟩ := Option.bind_eq_some_iff.1 hfn
  have hresolve : s.program.resolve? a.pag c.invoke obj = some (fn.method, some fn) := by
    unfold Program.resolve?
    rw [hkind, hx, Option.map_some, NodeKind.eq_function_of_function? hk]
  unfold receiverCall
  rw [run_get_bind, hresolve]
  dsimp only
  rw [if_pos hbody]

theorem receiverCall_pointer (hs : s.ByActions) (hc : c.OfProgram s.program)
    (h : f.Held a.builder obj fn created) (role : SiteRole) (hkind : c.invoke.kind = .pointer) :
    TrySpec (OnBuilder (Actions s.program)) (receiverCall s c n role obj) a fun _ a' =>
      ¬a'.builder.graph.LeadsBack c.caller fn.method →
        f.Called a.builder a'.builder c.callerCid c.site obj created := by
  obtain ⟨decl, hdecl, hbody, -⟩ := f.written
  have hhas : s.program.hasBody fn.method = true := by
    rw [h.method, Program.hasBody, hdecl]
    exact hbody
  exact .of_run_eq (refl_of (OnBuilder (Actions s.program)) a)
    (run_receiverCall_pointer hkind h.function? hhas role) (callResolved_arrow hs hc h)

/-- Other calls on a function are left to the models. -/
theorem receiverCall_models {role : SiteRole} {P : Builder → Prop}
    (hkind : c.invoke.kind ≠ .pointer) (hfn : a.pag.function? obj = some fn)
    (hrun : TrySpec (Actions s.program) (runModels s c role obj) a.builder fun taken b' =>
      taken = true ∧ P b') :
    TrySpec (OnBuilder (Actions s.program)) (receiverCall s c n role obj) a fun _ a' =>
      P a'.builder := by
  have hresolve : s.program.resolve? a.pag c.invoke obj = none :=
    resolve?_function_eq_none hkind (by rw [hfn]; rfl)
  have hleave :
    TrySpec (OnBuilder (Actions s.program)) (leaveToModels s c role obj) a fun taken a' =>
      taken = true ∧ P a'.builder := by
    refine .bind (build_onBuilder hrun) ?_
    rintro _ a₁ - ⟨rfl, hp⟩
    exact .pure ⟨rfl, hp⟩
  refine .get_bind ?_
  rw [hresolve]
  refine .bind hleave ?_
  rintro _ a₁ - ⟨rfl, hp⟩
  exact .pure hp

theorem receiverCall_function (hs : s.IsStandard) (hc : c.OfProgram s.program)
    (h : f.Held a.builder obj fn created) (role : SiteRole) (hrole : ∀ index, role ≠ .arg index)
    (hkind : c.invoke.kind ≠ .pointer)
    (hname : c.invoke.method.name = "call" ∨ c.invoke.method.name = "apply") :
    TrySpec (OnBuilder (Actions s.program)) (receiverCall s c n role obj) a fun _ a' =>
      f.Called a.builder a'.builder c.callerCid c.site obj created := by
  have hmodels := LibraryModel.runOnObject_named hc h hrole hname
  have hrun := runModels_called (P := fun taken => taken = true) hs
    (hmodels.mono fun _ _ _ ⟨htaken, hcalled⟩ => ⟨htaken, fun _ => hcalled⟩)
  exact receiverCall_models hkind h.function?
    (hrun.mono fun _ _ _ ⟨htaken, hcalled⟩ => ⟨htaken, hcalled htaken⟩)

/-- If the call is made in one of the ways of `CallsArrived`, it calls the arrow function. -/
theorem lookAs_called (hs : s.IsStandard) (hc : c.OfProgram s.program)
    (h : f.Held a.builder obj fn created) {m : MethodSig}
    (hcaller : a.builder.graph.methodOf? c.caller = some m) {role : SiteRole} {src : ContextId}
    (hrun : (lookAs s c n obj role).run.run a = (.ok (), a'))
    (hcalls : CallsArrived c.invoke c.callerCid created (∃ caller,
      a'.builder.graph.methodOf? caller = some m ∧
        a'.builder.graph.LeadsBack caller fn.method) role src) :
    f.Called a.builder a'.builder c.callerCid c.site obj src := by
  cases hcalls with
  | pointer base kind straight =>
    rw [lookAs_of_ne_arg base] at hrun
    obtain ⟨h₁, hcalled⟩ := (receiverCall_pointer hs.byActions hc h role kind).of_run hrun
    refine hcalled fun hback => straight ⟨c.caller, ?_, hback⟩
    exact (Actions.extends h₁).graph.method hcaller
  | function base kind name =>
    rw [lookAs_of_ne_arg base] at hrun
    exact ((receiverCall_function hs hc h role base kind name).of_run hrun).2
  | passed task => exact ((argCall_arrow hs hc h task).of_run hrun).2

/-- The call at the site was reached by the object, where the method has it wait in the context
`caller`. -/
structure Reached (p : Program) (g : Pag) (site : SiteRef) (obj : NodeId) (i : Invoke)
    (m : MethodSig) (caller : ContextId) : Prop where
  invoke : p.invokeOf? site.stmt = some i
  ofMethod : (p.stmt? site.stmt).map Stmt.method = some m
  waits : ∃ n, (g.node? n).map Node.cid = some caller ∧ site ∈ g.sitesOf n ∧ obj ∈ g.ptsOf n

/-- A call that was looked at for a function object has called the arrow function. -/
theorem Finished.called {f : p.Arrow} (h : Finished p .wholeProgram a)
    (hat : f.IsAt a.pag obj fn created) {site : SiteRef} {i : Invoke} {m : MethodSig}
    {caller src : ContextId} (hreached : Reached p a.pag site obj i m caller)
    (hcalls : CallsArrived i caller created (∃ g, a.builder.graph.methodOf? g = some m ∧
      a.builder.graph.LeadsBack g fn.method) site.role src) :
    ∃ callee cid, a.builder.graph.methodOf? callee = some f.method ∧
      (cid, callee) ∈ a.builder.built ∧ f.HasOuterReceiver a.pag src cid := by
  obtain ⟨n, hcid, hsite, ho⟩ := hreached.waits
  obtain ⟨st, hst, rfl⟩ := Option.map_eq_some_iff.1 hreached.ofMethod
  obtain ⟨s, a₀, a', rfl, hs, hb, hlaid, ho, hrun, hpag, hgraph, hbuilt⟩ := (h.looked hsite ho).run
  obtain ⟨c, cid, a₁, hcid₀, hcall, h₁, hlook⟩ := processSite_looks hreached.invoke hst hrun
  obtain rfl := hcall.invoke
  obtain rfl := hcall.callerCid
  have hcaller := hcall.caller
  -- The nodes were the same when the call was looked at.
  have hbuild := ((processSite_calleeRecorded hs.sound hb hlaid ho).of_run hrun).1
  have hg : a₀.pag.Extends a.pag := hbuild.layoutSteps.grows.pag.trans hpag
  cases (hg.cid hcid₀).symm.trans hcid
  have hheld := ((hat.of_extends hg ho).held hb).mono h₁
  have hcalled := lookAs_called hs hcall.ofProgram hheld hcaller hlook
    (hcalls.imp fun ⟨g, hm, hback⟩ => ⟨g, hgraph.method hm, hback.mono hgraph⟩)
  obtain ⟨callee, cid, hm, hmem, -, hsees⟩ := hcalled
  exact ⟨callee, cid, hgraph.method hm, hbuilt hmem, hsees.mono hpag⟩

/-! ## The receiver that is seen -/

/-- **Arrow functions see the receiver of the method around them, as it is where they were made or
where they are called.** Where an arrow function is called in one of the seven ways, it is laid out
in the context of the call as soon as nothing waits any more, and has the receiver there that
`CallsObject` says. So when an analysis of the whole program completes, an arrow function has been
called like this for every object and every call that waits for it. -/
theorem arrows_see_outer (f : p.Arrow) :
    (∀ (fuel : Nat) (a a' : Analysis) (c : ModelCall) (obj : NodeId) (fn : FunctionObject)
        (created src : ContextId) (step : TryAnalysis Unit), a.builder.Sound p → c.OfProgram p →
      f.IsAt a.pag obj fn created → CallsObject
        { program := p, models := LibraryModel.standard, fuel } c obj fn created a'.builder.graph
        step src → step.run.run a = (.ok (), a') →
      ∀ b, a'.builder.Extends b → b.pending = [] →
        f.Called a.builder b c.callerCid c.site obj src) ∧
    ∀ (seed : Seed) (entries : List MethodSig) (config : Config) (a : Analysis) (site : SiteRef)
        (i : Invoke) (m : MethodSig) (obj : NodeId) (fn : FunctionObject)
        (caller created src : ContextId),
      config.scale = .wholeProgram → Completes p seed entries config a →
      Reached p a.pag site obj i m caller → f.IsAt a.pag obj fn created →
      CallsArrived i caller created (∃ g, a.builder.graph.methodOf? g = some m ∧
        a.builder.graph.LeadsBack g fn.method) site.role src →
      ∃ callee cid, a.builder.graph.methodOf? callee = some f.method ∧
        (cid, callee) ∈ a.builder.built ∧ f.HasOuterReceiver a.pag src cid := by
  refine ⟨?_, ?_⟩
  · intro fuel a a' c obj fn created src step hsound hc hat hcalls hrun b hb hempty
    have hs : Setting.IsStandard { program := p, models := LibraryModel.standard, fuel } := rfl
    exact hcalls.called hs.byActions hc (hat.held hsound) hrun hb hempty
  · intro seed entries config a site i m obj fn caller created src hscale hcompletes hreached hat
    have hfinished := hcompletes.finished
    rw [hscale] at hfinished
    exact hfinished.called hat hreached

namespace Sample

open Program

/-- A method of a class, the arrow function in it, and a function that the arrow function is passed
to. -/
def around : MethodSig := ⟨⟨file, "A"⟩, "m"⟩

def lambda : MethodSig := ⟨⟨file, "A"⟩, "%AM0$m"⟩

def taker : MethodSig := ⟨file.defaultClass, "h"⟩

/-- `a = new A; a.m()` in `main`, where `m` is `g = () => { this }; h(g)`. If the call is `known`,
`h` calls what it is passed, else it passes it to a function that nobody knows. -/
def passing (known : Bool) : Program :=
  let (cls, p) := (addFile {} file false).2.addClass file "A" none
  let (_, p) := ((p.addMethod cls "m").2.addArrow around 0).2.addFunction file "h"
  let (_, d) := (p.openBody around).thisLocal
  let (g, d) := d.localVar "g" .any
  let (_, d) := d.assignNew g (.functionRef lambda)
  let (_, d) := d.call none { kind := .named, method := taker, base := none, args := [g] }
  let (_, d) := (d.close.openBody lambda).thisLocal
  let (q, d) := (d.close.openBody taker).param 0 "q" .any
  let (_, d) := d.call none <| if known
    then { kind := .pointer, method := lambda, base := some q, args := [] }
    else { kind := .named, method := ⟨.builtin "Lib", "each"⟩, base := none, args := [q] }
  let (a, d) := (d.close.openBody main).localVar "a" .any
  let (_, d) := d.assignNew a (.newObject cls)
  (d.call none { kind := .member, method := around, base := some a, args := [] }).2.close

def lambdaArrow (known : Bool) : (passing known).Arrow where
  method := lambda
  receiver := 6
  outer := 0
  isArrow := by decide +kernel
  reads := by revert known; decide +kernel
  written := by
    have hdecl : ((passing known).method? lambda).map
        (fun decl => (decl.hasBody, decl.outer.bind (passing known).thisLocal?)) =
          some (true, some 0) := by
      revert known
      decide +kernel
    obtain ⟨decl, hdecl, heq⟩ := Option.map_eq_some_iff.1 hdecl
    obtain ⟨hbody, houter⟩ := Prod.mk.inj heq
    exact ⟨decl, hdecl, hbody, houter⟩

/-- The function object of the arrow function, which `m` makes in its context 1. -/
def lambdaObject : FunctionObject := { method := lambda, func := some 2 }

theorem lambdaArrow_isAt (known : Bool) :
    (lambdaArrow known).IsAt (result (passing known)).pag 4 lambdaObject 1 := by
  have hnode : ((result (passing known)).pag.node? 4).map (fun x => (x.kind, x.cid)) =
      some (.function lambdaObject, 1) := by
    revert known
    decide +kernel
  obtain ⟨x, hx, heq⟩ := Option.map_eq_some_iff.1 hnode
  obtain ⟨hkind, hcid⟩ := Prod.mk.inj heq
  exact ⟨⟨x, hx, hkind, hcid⟩, rfl⟩

/-- What `h` does with its parameter if nobody knows the function that it is passed to. -/
def unknownCall : Invoke :=
  { kind := .named, method := ⟨.builtin "Lib", "each"⟩, base := none, args := [7] }

end Sample

open Sample

/-- Where `h` calls the arrow function, it sees the receiver of `m` in the context 1 of `m`. If `h`
has its parameter called by somebody else, it sees that in the context 2 of `h`. -/
theorem arrows_see_outer_passing :
    (∃ callee cid, (result (passing true)).builder.graph.methodOf? callee = some lambda ∧
      (cid, callee) ∈ (result (passing true)).builder.built ∧
      (lambdaArrow true).HasOuterReceiver (result (passing true)).pag 1 cid) ∧
    ∃ b, (lambdaArrow false).Called (result (passing false)).builder b 2 0 4 2 := by
  constructor
  · let i : Invoke := { kind := .pointer, method := lambda, base := some 7, args := [] }
    obtain ⟨hok, hi, hst, hcid, hsite, ho, hcaller, hcallee, hstraight⟩ :
        (run (passing true)).1.isOk = true ∧ (passing true).invokeOf? 5 = some i ∧
        ((passing true).stmt? 5).map Stmt.method = some taker ∧
        ((result (passing true)).pag.node? 7).map Node.cid = some 2 ∧
        ⟨5, .receiver⟩ ∈ (result (passing true)).pag.sitesOf 7 ∧
        4 ∈ (result (passing true)).pag.ptsOf 7 ∧
        (result (passing true)).builder.graph.methodOf? 3 = some taker ∧
        (result (passing true)).builder.graph.methodOf? 2 = some lambda ∧
        (result (passing true)).builder.graph.reachable 2 3 = false := by
      decide +kernel
    have hcompletes := completes_result hok
    have hgraph := hcompletes.finished.valid.grounded.sound.graph
    refine (arrows_see_outer (lambdaArrow true)).2 .direct [main] default _ ⟨5, .receiver⟩ i taker 4
      lambdaObject 2 1 1 rfl hcompletes ⟨hi, hst, 7, hcid, hsite, ho⟩ (lambdaArrow_isAt true)
      (.pointer nofun rfl ?_)
    rintro ⟨f, hf, g, hg, hback⟩
    cases hgraph.distinct hf hcaller
    cases hgraph.distinct hg hcallee
    rcases hback with hback | hback
    · cases hback
    · rw [hstraight] at hback
      cases hback
  · let c : ModelCall := {
      stmt := 5, caller := 3, callerCid := 2, site := 0, callee := unknownCall.method
      invoke := unknownCall, result := none }
    let s : Setting := { program := passing false, models := LibraryModel.standard, fuel := 20 }
    let r := (callBack s c 4).run.run (result (passing false))
    obtain ⟨hok, hi, hresult, hrun, hempty⟩ : (run (passing false)).1.isOk = true ∧
        (passing false).invokeOf? 5 = some unknownCall ∧
        ((passing false).stmt? 5).bind Stmt.defValue? = none ∧
        r.1 = .ok () ∧ r.2.builder.pending = [] := by
      decide +kernel
    exact ⟨r.2.builder, (arrows_see_outer (lambdaArrow false)).1 20 (result (passing false)) r.2 c 4
      lambdaObject 1 2 (callBack s c 4) (completes_result hok).finished.valid.grounded.sound
      ⟨hi, hresult⟩ (lambdaArrow_isAt false) .unknown (Prod.ext hrun rfl) r.2.builder .rfl hempty⟩

/-- The arrow function that `h` has called by somebody else does not see the receiver of `m` in the
context 1, in which it was made. The receiver that it sees has nothing. -/
theorem arrows_not_seeing :
    Completes (passing false) .direct [main] default (result (passing false)) ∧
    (lambdaArrow false).IsAt (result (passing false)).pag 4 lambdaObject 1 ∧
    4 ∈ (result (passing false)).pag.ptsOf 7 ∧
    (passing false).invokeOf? 5 = some unknownCall ∧
    ⟨5, .arg 0⟩ ∈ (result (passing false)).pag.sitesOf 7 ∧
    (result (passing false)).builder.graph.Calls 3 2 .indirect 5 ∧
    (result (passing false)).builder.graph.methodOf? 2 = some lambda ∧
    (3, 2) ∈ (result (passing false)).builder.built ∧
    ¬(lambdaArrow false).HasOuterReceiver (result (passing false)).pag 1 3 ∧
    Build.nodeIn? (result (passing false)).pag 3 (entityOf (passing false) 6) = some 8 ∧
    (result (passing false)).pag.ptsOf 8 = [] ∧ (result (passing false)).pag.ptsOf 3 = [0] := by
  obtain ⟨hok, ho, hi, hsite, ⟨e, he, hcall⟩, hm, hbuilt, hs, hd, hedge, hpts⟩ :
      (run (passing false)).1.isOk = true ∧ 4 ∈ (result (passing false)).pag.ptsOf 7 ∧
      (passing false).invokeOf? 5 = some unknownCall ∧
      ⟨5, .arg 0⟩ ∈ (result (passing false)).pag.sitesOf 7 ∧
      (∃ e ∈ (result (passing false)).builder.graph.edge? 3 2, 5 ∈ e.calls .indirect) ∧
      (result (passing false)).builder.graph.methodOf? 2 = some lambda ∧
      (3, 2) ∈ (result (passing false)).builder.built ∧
      Build.nodeIn? (result (passing false)).pag 1 (entityOf (passing false) 0) = some 3 ∧
      Build.nodeIn? (result (passing false)).pag 3 (entityOf (passing false) 6) = some 8 ∧
      ⟨.this, 3, 8⟩ ∉ (result (passing false)).pag.edges ∧
      (result (passing false)).pag.ptsOf 8 = [] ∧ (result (passing false)).pag.ptsOf 3 = [0] := by
    decide +kernel
  have hnot : ¬(lambdaArrow false).HasOuterReceiver (result (passing false)).pag 1 3 := by
    rintro ⟨s, d, hs', hd', hseen⟩
    cases hs.symm.trans hs'
    cases hd.symm.trans hd'
    exact hedge hseen
  exact ⟨completes_result hok, lambdaArrow_isAt false, ho, hi, hsite, ⟨e, he, hcall⟩, hm, hbuilt,
    hnot, hd, hpts⟩

end Analysis

end PointsTo
