import PointsTo.Proofs.Actions.Arguments
import PointsTo.Proofs.Analysis.Callbacks
import PointsTo.Proofs.Analysis.OuterReceivers

/-!
# Arguments survive any chain of `bind`

A function object holds what the chain of calls of `bind` has fixed that made it, at any time of any
run. Whether it is called through a pointer, by `call` or as a task, the arguments of the call come
after all that was passed to `bind`, so each argument reaches the parameter at its position among
all of them (`Analysis.arguments_survive_binds`).
-/

namespace PointsTo

open Builder (Actions CallContext)
open Build
open Program

namespace Analysis

variable {s : Setting} {p : Program} {a a' : Analysis} {c : ModelCall} {n obj : NodeId}
  {m : MethodSig} {fn : FunctionObject} {calls : List PassedList} {xs : List PassedValue}
  {enter : Enter} {own : List ValueId}

/-! ## The ways to call -/

/-- From `a` on, the step connects a call that passes exactly these values to the method. -/
def ConnectsCall (p : Program) (a : Analysis) (enter : Enter) (c : ModelCall) (obj : NodeId)
    (m : MethodSig) (xs : List PassedValue) (step : TryAnalysis Unit) : Prop :=
  ∃ (a₁ : Analysis) (connects : TryBuild Unit), Actions p a.builder a₁.builder ∧
    Build.ConnectsCall p a₁.builder enter c obj m xs connects ∧
    step.run.run a = (build connects).run.run a₁

/-- The ways to call a function object with arguments of the call itself, and these arguments. What
the models call waits to be laid out. A call through a pointer is followed only if it does not lead
back, where `g` is the call graph afterwards. -/
inductive CallsWith (s : Setting) (c : ModelCall) (obj : NodeId) (fn : FunctionObject)
    (g : CallGraph) : Enter → TryAnalysis Unit → List ValueId → Prop where
  | pointer (n : NodeId) (straight : ¬g.LeadsBack c.caller fn.method) : CallsWith s c obj fn g
      (Build.enterNow s) (callResolved s c n obj fn.method (some fn)) c.invoke.args
  | function (cid : ContextId) : CallsWith s c obj fn g Build.enqueue
      (build (Library.Function.invoke s.program Build.enqueue c obj fn cid false))
      (c.invoke.args.drop 1)
  | task : CallsWith s c obj fn g Build.enqueue
      (build (Library.TaskPool.run s.program Build.enqueue c obj fn)) (c.invoke.args.drop 1)

theorem resolvedBinding_passes (hc : c.OfProgram p) (hfixed : p.Fixed a.pag m calls fn)
    {callee : FuncId} : Spec (Actions p) (resolvedBinding p c n obj callee (some fn)) a.builder
      fun binding b' => binding.callee = callee ∧ binding.callerCid = c.callerCid ∧
        binding.site = c.site ∧ binding.contextObj = some obj ∧
        p.Passes b'.pag (allArgs calls c.callerCid c.invoke.args) 0 binding.args := by
  refine .get_bind (.bind (argNodes_passes _ _) fun args b₁ h₁ hargs => ?_)
  refine .seq (resultNode?_actions hc).spec fun result b₂ h₂ => .pure ⟨rfl, rfl, rfl, rfl, ?_⟩
  exact ((hfixed.mono h₁.extends.pag).passes hargs).mono h₂.extends.pag

/-- The callee is found and the call is recorded. Then it is connected, unless the calls that were
recorded before lead back. -/
theorem run_callResolved (h : a.builder.HasFunctionObject obj fn) :
    ∃ (callee : FuncId) (a₁ a₂ : Analysis),
    Actions s.program a.builder a₁.builder ∧ Actions s.program a₁.builder a₂.builder ∧
    a₁.builder.graph.methodOf? callee = some fn.method ∧
    (callResolved s c n obj fn.method (some fn)).run.run a =
      (if !(callee == c.caller || a₁.builder.graph.reachable callee c.caller) then
        build do discard (connect s.program (Build.enterNow s)
          (← resolvedBinding s.program c n obj callee (some fn)))
      else pure () : TryAnalysis Unit).run.run a₂ := by
  obtain ⟨h₁, hm⟩ := functionCallee_holds (p := s.program) h
  let found := (functionCallee s.program fn).run a.builder
  let recorded := (addCall c.caller found.1 c.stmt .indirect).run found.2
  let a₂ : Analysis := { a with builder := recorded.2 }
  have h₂ : Actions s.program found.2 recorded.2 := addCall_actions (p := s.program) found.2
  have hsame : ((countResolved recorded.1).run.run a₂).2.builder = a₂.builder := by
    show (if recorded.1 then _ else a₂ : Analysis).builder = a₂.builder
    split <;> rfl
  refine ⟨found.1, { a with builder := found.2 }, ((countResolved recorded.1).run.run a₂).2, h₁,
    hsame ▸ h₂, hm, ?_⟩
  rw [callResolved_function]
  rfl

theorem callResolved_connectsCall (hc : c.OfProgram s.program)
    (h : a.builder.HasFunctionObject obj fn) (hfixed : s.program.Fixed a.pag m calls fn)
    (hstraight : ¬((callResolved s c n obj fn.method (some fn)).run.run a).2.builder.graph.LeadsBack
      c.caller fn.method) :
    ConnectsCall s.program a (Build.enterNow s) c obj m
      (allArgs calls c.callerCid c.invoke.args)
      (callResolved s c n obj fn.method (some fn)) := by
  obtain ⟨callee, a₁, a₂, h₁, h₂, hm, hrun⟩ := run_callResolved (n := n) (c := c) h
  have h₀₂ : Actions s.program a.builder a₂.builder := trans_of (Actions s.program) h₁ h₂
  rw [hrun] at hstraight
  split at hrun
  · refine ⟨a₂, _, h₀₂, .bind (resolvedBinding_passes hc (hfixed.mono h₀₂.extends.pag)) ?_, hrun⟩
    rintro binding b₁ h₃ ⟨rfl, hcaller, hsite, hobj, hargs⟩
    refine .connect ?_ hcaller hsite hobj hargs
    exact hfixed.method ▸ (h₂.extends.trans h₃.extends).graph.method hm
  · -- The call was found to lead back, and it still does.
    rename_i hback
    rw [if_neg hback] at hstraight
    have hgrown := h₂.extends.graph
    refine absurd ⟨callee, hgrown.method hm, ?_⟩ hstraight
    have hleads : callee = c.caller ∨ a₁.builder.graph.reachable callee c.caller = true := by
      simpa [← or_iff_not_imp_left] using hback
    exact hleads.imp_right (CallGraph.reachable_mono hgrown.size hgrown.links)

theorem CallsWith.connectsCall (hc : c.OfProgram s.program)
    (h : a.builder.HasFunctionObject obj fn) (hfixed : s.program.Fixed a.pag m calls fn)
    {step : TryAnalysis Unit}
    (hcalls : CallsWith s c obj fn (step.run.run a).2.builder.graph enter step own) :
    ConnectsCall s.program a enter c obj m (allArgs calls c.callerCid own) step := by
  cases hcalls with
  | pointer n straight => exact callResolved_connectsCall hc h hfixed straight
  | function cid =>
    exact ⟨a, _, refl_of (Actions s.program) a.builder,
      Library.Function.invoke_connectsCall hc h hfixed, rfl⟩
  | task =>
    exact ⟨a, _, refl_of (Actions s.program) a.builder,
      Library.TaskPool.run_connectsCall hc h hfixed, rfl⟩

theorem CallsWith.enter_byActions {g : CallGraph} {step : TryAnalysis Unit} (hs : s.ByActions)
    (h : CallsWith s c obj fn g enter step own) : enter.ByActions s.program := by
  cases h with
  | pointer => exact enterNow_byActions hs
  | function | task => exact enqueue_byActions

/-- If the call is connected, the method receives what is passed. -/
theorem ConnectsCall.passes {step : TryAnalysis Unit} (h : ConnectsCall p a enter c obj m xs step)
    (henter : enter.ByActions p) (hbody : p.hasBody m = true) :
    TrySpec (OnBuilder (Actions p)) step a fun _ a' =>
      c.Passes p a.builder a'.builder obj m xs := by
  obtain ⟨a₁, connects, h₁, hconnects, hrun⟩ := h
  refine .of_run_eq h₁ hrun ((build_onBuilder (hconnects.passes henter hbody)).mono ?_)
  exact fun _ a₂ _ hpasses => hpasses.mono (Actions.extends h₁).contexts .rfl

/-! ## Calls that wait -/

/-- How a call that waits for receivers, pointers or arguments calls a function object that reaches
it, with the arguments of the call itself. -/
inductive ArrivesWith (i : Invoke) (back : Prop) : SiteRole → List ValueId → Prop where
  | pointer {role : SiteRole} (base : ∀ index, role ≠ .arg index) (kind : i.kind = .pointer)
      (straight : ¬back) : ArrivesWith i back role i.args
  | function {role : SiteRole} (base : ∀ index, role ≠ .arg index) (kind : i.kind ≠ .pointer)
      (name : i.method.name = "call") : ArrivesWith i back role (i.args.drop 1)
  | task (task : Library.TaskPool.isExecute i.method = true ∨
      Library.TaskPool.isTask i.method = true) : ArrivesWith i back (.arg 0) (i.args.drop 1)

theorem ArrivesWith.imp {i : Invoke} {back back' : Prop} {role : SiteRole}
    (h : ArrivesWith i back role own) (hback : back' → back) : ArrivesWith i back' role own := by
  cases h with
  | pointer base kind straight => exact .pointer base kind (mt hback straight)
  | function base kind name => exact .function base kind name
  | task task => exact .task task

/-- The model of stores passes, and that of functions takes the call. -/
theorem runOnObject_call (hc : c.OfProgram p) {b : Builder} (h : b.HasFunctionObject obj fn)
    (hfixed : p.Fixed b.pag m calls fn) (hbody : p.hasBody m = true) {role : SiteRole}
    (hrole : ∀ index, role ≠ .arg index) (hname : c.invoke.method.name = "call") :
    TrySpec (Actions p)
      (LibraryModel.runOnObject p Build.enqueue c role obj LibraryModel.standard) b
      fun taken b' => taken = true ∧ c.Passes p b b' obj m
        (allArgs calls c.callerCid (c.invoke.args.drop 1)) := by
  obtain ⟨x, hx, hkind⟩ := Option.bind_eq_some_iff.1 h.function?
  have hinvoke : TrySpec (Actions p) (do
      Library.Function.invoke p Build.enqueue c obj fn x.cid false
      return true) b fun taken b' => taken = true ∧ c.Passes p b b' obj m
        (allArgs calls c.callerCid (c.invoke.args.drop 1)) :=
    .bind ((Library.Function.invoke_connectsCall hc h hfixed).passes enqueue_byActions hbody)
      fun _ _ _ hpasses => .pure ⟨rfl, hpasses⟩
  have hmodel : TrySpec (Actions p) (Library.Function.model.onObject p Build.enqueue c role obj) b
      fun taken b' => taken = true ∧ c.Passes p b b' obj m
        (allArgs calls c.callerCid (c.invoke.args.drop 1)) := by
    refine .get_bind ?_
    rw [hx]
    cases role with
    | arg index => exact absurd rfl (hrole index)
    | receiver | unknown =>
      dsimp only
      rw [hkind]
      unfold Library.Function.onFunction
      rw [hname]
      exact hinvoke
  refine .bind (Library.Storage.onObject_function hrole (by rw [h.function?]; rfl)) ?_
  rintro _ _ - ⟨rfl, rfl⟩
  refine .bind hmodel ?_
  rintro _ b₁ - ⟨rfl, hpasses⟩
  exact .pure ⟨rfl, hpasses⟩

/-- The model of tasks takes the call. -/
theorem runOnObject_task (hc : c.OfProgram p) {b : Builder} (h : b.HasFunctionObject obj fn)
    (hfixed : p.Fixed b.pag m calls fn) (hbody : p.hasBody m = true)
    (htask : Library.TaskPool.isExecute c.invoke.method = true ∨
      Library.TaskPool.isTask c.invoke.method = true) :
    TrySpec (Actions p)
      (LibraryModel.runOnObject p Build.enqueue c (.arg 0) obj LibraryModel.standard) b
      fun taken b' => taken = true ∧ c.Passes p b b' obj m
        (allArgs calls c.callerCid (c.invoke.args.drop 1)) := by
  have hstorage : TrySpec (Actions p)
      (Library.Storage.model.onObject p Build.enqueue c (.arg 0) obj) b fun taken b' =>
        taken = false ∧ b' = b := .get_bind (.pure ⟨rfl, rfl⟩)
  have hfunction : TrySpec (Actions p)
      (Library.Function.model.onObject p Build.enqueue c (.arg 0) obj) b fun taken b' =>
        taken = false ∧ b' = b := .get_bind (.pure ⟨rfl, rfl⟩)
  have hmodel : TrySpec (Actions p)
      (Library.TaskPool.model.onObject p Build.enqueue c (.arg 0) obj) b fun taken b' =>
        taken = true ∧ c.Passes p b b' obj m
          (allArgs calls c.callerCid (c.invoke.args.drop 1)) := by
    unfold Library.TaskPool.model
    dsimp only
    rw [if_neg (by rcases htask with h | h <;> simp [h]), if_neg (by simp)]
    refine .bind (.lift (functionAt?_holds h)) ?_
    rintro _ _ - ⟨rfl, rfl⟩
    exact .bind ((Library.TaskPool.run_connectsCall hc h hfixed).passes enqueue_byActions hbody)
      fun _ _ _ hpasses => .pure ⟨rfl, hpasses⟩
  refine .bind hstorage ?_
  rintro _ _ - ⟨rfl, rfl⟩
  refine .bind hfunction ?_
  rintro _ _ - ⟨rfl, rfl⟩
  refine .bind hmodel ?_
  rintro _ b₁ - ⟨rfl, hpasses⟩
  exact .pure ⟨rfl, hpasses⟩

/-- If the call is made in one of the ways of `ArrivesWith`, the method receives what is passed. -/
theorem lookAs_passes (hs : s.IsStandard) (hc : c.OfProgram s.program)
    (h : a.builder.HasFunctionObject obj fn)
    (hfixed : s.program.Fixed a.pag m calls fn) (hbody : s.program.hasBody m = true)
    {role : SiteRole} (hrun : (lookAs s c n obj role).run.run a = (.ok (), a'))
    (harrives : ArrivesWith c.invoke (a'.builder.graph.LeadsBack c.caller m) role own) :
    c.Passes s.program a.builder a'.builder obj m
      (allArgs calls c.callerCid own) := by
  have hmodels : ∀ {role}, TrySpec (Actions s.program)
      (LibraryModel.runOnObject s.program Build.enqueue c role obj LibraryModel.standard) a.builder
      (fun taken b' => taken = true ∧ c.Passes s.program a.builder b' obj m
        (allArgs calls c.callerCid (c.invoke.args.drop 1))) →
      TrySpec (Actions s.program) (runModels s c role obj) a.builder fun taken b' => taken = true ∧
        c.Passes s.program a.builder b' obj m
          (allArgs calls c.callerCid (c.invoke.args.drop 1)) := fun hrun =>
    (runModels_spec hs (fun hb hp => ⟨hp.1, hp.2.mono .rfl hb⟩) hrun).mono fun _ _ _ hp => hp.1
  cases harrives with
  | pointer base kind straight =>
    have hhas : s.program.hasBody fn.method = true := hfixed.method ▸ hbody
    rw [lookAs_of_ne_arg base, run_receiverCall_pointer kind h.function? hhas] at hrun
    have hconnects := callResolved_connectsCall (n := n) hc h hfixed (by
      rw [hrun, hfixed.method]
      exact straight)
    exact ((hconnects.passes (enterNow_byActions hs.byActions) hbody).of_run hrun).2
  | function base kind name =>
    rw [lookAs_of_ne_arg base] at hrun
    have hcall := runOnObject_call hc h hfixed hbody base name
    exact ((receiverCall_models kind h.function? (hmodels hcall)).of_run hrun).2
  | task task =>
    have hcall := runOnObject_task hc h hfixed hbody task
    have hlook : TrySpec (OnBuilder (Actions s.program)) (lookAs s c n obj (.arg 0)) a fun _ a' =>
        c.Passes s.program a.builder a'.builder obj m
          (allArgs calls c.callerCid (c.invoke.args.drop 1)) := by
      refine .bind (build_onBuilder (hmodels hcall)) ?_
      rintro _ a₁ - ⟨rfl, hpasses⟩
      exact .pure hpasses
    exact (hlook.of_run hrun).2

/-! ## To the end -/

/-- However an analysis ends, all function objects are as they were made. -/
theorem solve_functionsAsMade (hs : s.ByActions) (scale : Scale)
    (graph : CallGraph) (config : Config) :
    ((solve s scale).run.run (ofGraph graph config)).2.pag.FunctionsAsMade s.program :=
  Actions.functionsAsMade (solve_actions hs (ofGraph graph config) trivial)
    Builder.functionsAsMade_ofGraph

theorem Completes.functionsAsMade {seed : Seed} {entries : List MethodSig} {config : Config}
    (h : Completes p seed entries config a) : a.pag.FunctionsAsMade p := by
  obtain ⟨fuel, hrun⟩ := h.solved
  let s : Setting := { program := p, models := LibraryModel.standard, fuel }
  have hs : s.IsStandard := rfl
  have hend := solve_functionsAsMade hs.byActions config.scale (seed.graph p entries) config
  rw [hrun] at hend
  exact hend

variable {seed : Seed} {entries : List MethodSig} {config : Config}

/-- A call that was looked at for a function object has asked for its method and passed on all
arguments. -/
theorem Completes.passes (h : Completes p seed entries config a)
    (hscale : config.scale = .wholeProgram) {site : SiteRef} {i : Invoke} {t : MethodSig}
    {cid : ContextId} (hreached : Reached p a.pag site obj i t cid)
    (hbinds : p.Binds a.pag obj m calls) (hbody : p.hasBody m = true)
    (harrives : ArrivesWith i (∃ g, a.builder.graph.methodOf? g = some t ∧
      a.builder.graph.LeadsBack g m) site.role own) :
    ∃ callee inner, a.builder.graph.methodOf? callee = some m ∧ a.builder.Requested callee inner ∧
      CallContext a.builder.blank a.builder cid (siteAt a.builder.graph site.stmt) (some obj)
        callee inner ∧
      p.Receives a.pag m inner (allArgs calls cid own) := by
  obtain ⟨n, hcid, hsite, ho⟩ := hreached.waits
  obtain ⟨st, hst, rfl⟩ := Option.map_eq_some_iff.1 hreached.ofMethod
  have hwaits : a.Waits n site obj := ⟨hsite, ho⟩
  have hlooked := or_self_iff.1 (h.meet hscale hwaits hwaits)
  obtain ⟨c, b₀, hc, hsight, -⟩ := hlooked.lookedAt hreached.invoke hst hcid
  obtain ⟨s, a₁, a', rfl, hs, h₁, hlook, h₂⟩ := hsight.run
  -- What the function object holds was there when the call was looked at.
  have hfashioned := h.functionsAsMade
  obtain ⟨fn, hfn, hfixed⟩ := hfashioned.fixed hbinds
  have hholds := hfashioned.holds hfn
  have hfixed₀ := hfixed.of_extends hsight.extended.pag
    (fun k hk => Nat.lt_trans (hholds.this k hk) hsight.lt)
    (fun arg harg => Nat.lt_trans (hholds.args arg harg) hsight.lt)
  have hfn₀ := (Pag.function?_congr hsight.extended.pag hsight.lt).symm.trans hfn
  rw [← hc.invoke] at harrives
  have hpasses := lookAs_passes hs hc.ofProgram ((hsight.sound.holds hfn₀).mono h₁)
    (hfixed₀.mono h₁.pag) hbody hlook
    (harrives.imp fun hback => ⟨c.caller, hc.caller, hback.mono h₂.graph⟩)
  obtain ⟨callee, inner, hm, hasked, hcontext, hreceives⟩ :=
    hpasses.mono (hsight.extends_blank.trans h₁.contexts) h₂
  rw [hc.callerCid, hc.site] at hcontext
  rw [hc.callerCid] at hreceives
  exact ⟨callee, inner, hm, hasked, hcontext, hreceives⟩

/-- **Argument positions survive any chain of binds.** However a run ends, every function object is
what a chain of calls of `bind` has made of a function of the program, and holds exactly the
arguments of the chain that are locals, with their positions in the whole chain. A call of a
function object passes what it holds and its own arguments at the positions after those, and
connects nothing else. If the method has a body, it gets each of the arguments that is a local, at
its position. And when an analysis of the whole program completes, that has happened for every
function object and every call that waits for it. -/
theorem arguments_survive_binds (p : Program) :
    (∀ (fuel : Nat) (seed : Seed) (entries : List MethodSig) (config : Config) (a : Analysis),
      a = ((solve { program := p, models := LibraryModel.standard, fuel } config.scale).run.run
        (ofGraph (seed.graph p entries) config)).2 →
      a.pag.FunctionsAsMade p ∧
      (∀ obj fn, a.pag.function? obj = some fn → ∃ m calls, p.Binds a.pag obj m calls) ∧
      ∀ obj m calls, p.Binds a.pag obj m calls →
        ∃ fn, a.pag.function? obj = some fn ∧ p.Fixed a.pag m calls fn) ∧
    (∀ (fuel : Nat) (a : Analysis) (c : ModelCall) (obj : NodeId) (fn : FunctionObject)
        (m : MethodSig) (calls : List PassedList) (enter : Enter) (own : List ValueId)
        (step : TryAnalysis Unit),
      a.builder.Sound p → a.pag.FunctionsAsMade p → c.OfProgram p → a.pag.function? obj = some fn →
      p.Binds a.pag obj m calls →
      CallsWith { program := p, models := LibraryModel.standard, fuel } c obj fn
        (step.run.run a).2.builder.graph enter step own →
      ConnectsCall p a enter c obj m (allArgs calls c.callerCid own) step ∧
      ∀ a', p.hasBody m = true → step.run.run a = (.ok (), a') →
        c.Passes p a.builder a'.builder obj m (allArgs calls c.callerCid own)) ∧
    ∀ (seed : Seed) (entries : List MethodSig) (config : Config) (a : Analysis) (site : SiteRef)
        (i : Invoke) (t : MethodSig) (cid : ContextId) (obj : NodeId) (m : MethodSig)
        (calls : List PassedList) (own : List ValueId),
      config.scale = .wholeProgram → Completes p seed entries config a →
      Reached p a.pag site obj i t cid → p.Binds a.pag obj m calls → p.hasBody m = true →
      ArrivesWith i (∃ g, a.builder.graph.methodOf? g = some t ∧
        a.builder.graph.LeadsBack g m) site.role own →
      ∃ callee inner, a.builder.graph.methodOf? callee = some m ∧
        CallContext a.builder.blank a.builder cid (siteAt a.builder.graph site.stmt) (some obj)
          callee inner ∧
        p.Receives a.pag m inner (allArgs calls cid own) := by
  refine ⟨?_, ?_, ?_⟩
  · rintro fuel seed entries config a rfl
    have hs : Setting.IsStandard { program := p, models := LibraryModel.standard, fuel } := rfl
    have hfashioned := solve_functionsAsMade hs.byActions config.scale (seed.graph p entries) config
    exact ⟨hfashioned, fun _ _ => hfashioned.exists_binds, fun _ _ _ => hfashioned.fixed⟩
  · intro fuel a c obj fn m calls enter own step hsound hfashioned hc hfn hbinds hcalls
    have hs : Setting.IsStandard { program := p, models := LibraryModel.standard, fuel } := rfl
    obtain ⟨fn', hfn', hfixed⟩ := hfashioned.fixed hbinds
    cases hfn'.symm.trans hfn
    have hconnects := hcalls.connectsCall hc (hsound.holds hfn) hfixed
    refine ⟨hconnects, fun a' hbody hrun => ?_⟩
    have hpasses := hconnects.passes (hcalls.enter_byActions hs.byActions) hbody
    exact (hpasses.of_run hrun).2
  · intro seed entries config a site i t cid obj m calls own hscale hcompletes hreached hbinds hbody
      harrives
    obtain ⟨callee, inner, hm, -, hcontext, hreceives⟩ :=
      hcompletes.passes hscale hreached hbinds hbody harrives
    exact ⟨callee, inner, hm, hcontext, hreceives⟩

namespace Sample

open Program

/-- What is bound in `binding`. -/
def bound : MethodSig := ⟨file.defaultClass, "f"⟩

/-- `g = f; h = g.bind(a, a, 1); k = h.bind(b, b); k(a)`, where `f` reads its fourth parameter. -/
def binding : Program :=
  let d := ((addFile {} file false).2.addFunction file "f").2.openBody main
  let (g, d) := d.localVar "g" .any
  let (a, d) := d.localVar "a" .any
  let (b, d) := d.localVar "b" .any
  let (h, d) := d.localVar "h" .any
  let (k, d) := d.localVar "k" .any
  let (one, d) := d.constant "1" .any
  let bind (base : ValueId) (args : List ValueId) : Invoke :=
    { kind := .member, method := ⟨.builtin "Function", "bind"⟩, base := some base, args }
  let (_, d) := d.assignNew g (.functionRef bound)
  let (_, d) := d.assignNew a (.newObject (.builtin "Object"))
  let (_, d) := d.assignNew b (.newObject (.builtin "Object"))
  let (_, d) := d.call (some h) (bind g [a, a, one])
  let (_, d) := d.call (some k) (bind h [b, b])
  let (_, d) := d.call none { kind := .pointer, method := bound, base := some k, args := [a] }
  ((d.close.openBody bound).param 3 "t" .any).2.close

/-- The arguments of the two calls of `bind`. -/
def bindings : List PassedList := [(0, [1, 1, 5]), (0, [2, 2])]

/-- What `k` is. -/
def boundTwice : FunctionObject where
  method := bound
  func := some 1
  bindStmt := some 4
  boundThis := some 3
  boundArgs := [(3, 0), (5, 2)]
  argOffset := 3

theorem binding_binds : binding.Binds (result binding).pag 9 bound bindings := by
  let shown (x : Node) : Bool × Entity × ContextId := (x.kind.function?.isSome, x.entity, x.cid)
  have hat : ∀ {n e}, ((result binding).pag.node? n).map shown = some (true, e, 0) →
      ∃ x fn, (result binding).pag.node? n = some x ∧ x.kind = .function fn ∧ x.entity = e ∧
        x.cid = 0 := by
    intro n e h
    obtain ⟨x, hx, heq⟩ := Option.map_eq_some_iff.1 h
    obtain ⟨hfn, rest⟩ := Prod.mk.inj heq
    obtain ⟨fn, hfn⟩ := Option.isSome_iff_exists.1 hfn
    exact ⟨x, fn, hx, NodeKind.eq_function_of_function? hfn, Prod.mk.inj rest⟩
  obtain ⟨h₀, h₁, h₂, hvalue, hfirst, hsecond⟩ :
      ((result binding).pag.node? 0).map shown = some (true, .value 6, 0) ∧
      ((result binding).pag.node? 8).map shown = some (true, .boundFunction 3 0, 0) ∧
      ((result binding).pag.node? 9).map shown = some (true, .boundFunction 4 8, 0) ∧
      binding.value? 6 = some (.functionRef bound) ∧
      (binding.invokeOf? 3).map Invoke.args = some [1, 1, 5] ∧
      (binding.invokeOf? 4).map Invoke.args = some [2, 2] := by
    decide +kernel
  obtain ⟨x₀, fn₀, hx₀, hk₀, he₀, -⟩ := hat h₀
  obtain ⟨x₁, fn₁, hx₁, hk₁, he₁, hc₁⟩ := hat h₁
  obtain ⟨x₂, fn₂, hx₂, hk₂, he₂, hc₂⟩ := hat h₂
  obtain ⟨i₁, hi₁, hargs₁⟩ := Option.map_eq_some_iff.1 hfirst
  obtain ⟨i₂, hi₂, hargs₂⟩ := Option.map_eq_some_iff.1 hsecond
  have hbinds := Program.Binds.bind (.bind (.literal hx₀ hk₀ he₀ hvalue) hx₁ hk₁ he₁ hi₁)
    hx₂ hk₂ he₂ hi₂
  rw [hc₁, hc₂, hargs₁, hargs₂] at hbinds
  exact hbinds

end Sample

open Sample

/-- What `k` is in `binding` was made by two calls of `bind`. It holds the first and the third of
the arguments. Calling it once more passes the same again, and `f` has received all of them. -/
theorem arguments_survive_binds_binding :
    binding.Fixed (result binding).pag bound bindings boundTwice ∧
    allArgs bindings 0 [1] = [(0, 1), (0, 5), (0, 2), (0, 1)] ∧
    (∃ c b, ModelCall.Passes binding c (result binding).builder b 9 bound
      (allArgs bindings 0 [1])) ∧
    ∃ inner, binding.Receives (result binding).pag bound inner (allArgs bindings 0 [1]) := by
  let i : Invoke := { kind := .pointer, method := bound, base := some 4, args := [1] }
  let c : ModelCall := {
    stmt := 5, caller := 0, callerCid := 0, site := 0, callee := bound,
    invoke := i, result := none }
  let s : Setting := { program := binding, models := LibraryModel.standard, fuel := 20 }
  let step := callResolved s c 6 9 bound (some boundTwice)
  let r := step.run.run (result binding)
  obtain ⟨hok, hfn, hi, hresult, hst, hcid, hsite, ho, hbody, hmain, hstraight⟩ :
      (run binding).1.isOk = true ∧
      (result binding).pag.function? 9 = some boundTwice ∧ binding.invokeOf? 5 = some i ∧
      (binding.stmt? 5).bind Stmt.defValue? = none ∧
      (binding.stmt? 5).map Stmt.method = some main ∧
      ((result binding).pag.node? 6).map Node.cid = some 0 ∧
      ⟨5, .receiver⟩ ∈ (result binding).pag.sitesOf 6 ∧ 9 ∈ (result binding).pag.ptsOf 6 ∧
      binding.hasBody bound = true ∧ (result binding).builder.graph.methodOf? 0 = some main ∧
      ¬(result binding).builder.graph.LeadsBack 0 bound := by
    decide +kernel
  obtain ⟨hrun, hagain⟩ : r.1 = .ok () ∧ ¬r.2.builder.graph.LeadsBack c.caller bound := by
    decide +kernel
  have hcompletes := completes_result hok
  have hsound := hcompletes.finished.valid.grounded.sound
  obtain ⟨hends, hcalls, harrives⟩ := arguments_survive_binds binding
  obtain ⟨fuel, hsolve⟩ := hcompletes.solved
  obtain ⟨hfashioned, -, hfixed⟩ := hends fuel .direct [main] default (result binding)
    (congrArg Prod.snd hsolve).symm
  obtain ⟨fn, hfn', hfixed⟩ := hfixed 9 bound bindings binding_binds
  cases hfn'.symm.trans hfn
  obtain ⟨-, hpasses⟩ := hcalls 20 (result binding) c 9 boundTwice bound bindings _ [1] step
    hsound hfashioned ⟨hi, hresult⟩ hfn binding_binds (.pointer 6 hagain)
  have hback : ¬∃ g, (result binding).builder.graph.methodOf? g = some main ∧
      (result binding).builder.graph.LeadsBack g bound := by
    rintro ⟨g, hg, hback⟩
    cases hsound.graph.distinct hg hmain
    exact hstraight hback
  obtain ⟨callee, inner, -, -, hreceives⟩ := harrives .direct [main] default (result binding)
    ⟨5, .receiver⟩ i main 0 9 bound bindings [1] rfl hcompletes ⟨hi, hst, 6, hcid, hsite, ho⟩
    binding_binds hbody (.pointer nofun rfl hback)
  exact ⟨hfixed, rfl, ⟨c, r.2.builder, hpasses r.2 hbody (Prod.ext hrun rfl)⟩, inner, hreceives⟩

end Analysis

end PointsTo
