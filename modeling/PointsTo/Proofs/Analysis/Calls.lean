import PointsTo.Proofs.Analysis.Steps

/-!
# Looking at waiting calls

Looking at a waiting call is work for the builder: facts, queue and the list of arrivals stay as
they are (`ChangesOnlyBuilder`). If it succeeds, a callee with a body that the object tells is
recorded as called (`CalleeRecorded`). This is so even if the callee is not entered because the call
would close a cycle.
-/

namespace PointsTo.Analysis

open Builder (LayoutSteps AllCallsWait)
open Build

variable {s : Setting} {p : Program} {a a' : Analysis}

/-- Only the builder and the statistics change. -/
structure ChangesOnlyBuilder (p : Program) (a a' : Analysis) : Prop where
  layoutSteps : LayoutSteps p a.builder a'.builder
  facts : a'.facts = a.facts
  queue : a'.queue = a.queue
  arrivals : a'.arrivals = a.arrivals

instance (p : Program) : IsPreorder Analysis (ChangesOnlyBuilder p) where
  refl a := ⟨refl_of (LayoutSteps p) a.builder, rfl, rfl, rfl⟩
  trans _ _ _ h h' :=
    ⟨trans_of (LayoutSteps p) h.layoutSteps h'.layoutSteps, h'.facts.trans h.facts,
    h'.queue.trans h.queue, h'.arrivals.trans h.arrivals⟩

theorem steps_of_layoutSteps {b : Builder} (h : LayoutSteps p a.builder b) :
    Steps p a { a with builder := b } := by
  induction h with
  | refl => exact refl_of (Steps p) a
  | tail _ hmove ih => exact ih.tail (.build hmove)

theorem ChangesOnlyBuilder.steps (h : ChangesOnlyBuilder p a a') : Steps p a a' := by
  obtain ⟨lays, facts, queue, arrivals⟩ := h
  have heq : a' = { a with builder := a'.builder, stats := a'.stats } := by
    rw [← facts, ← queue, ← arrivals]
  rw [heq]
  exact (steps_of_layoutSteps lays).tail (.schedule a.queue a.arrivals a'.stats)

theorem build_spec {α : Type} {step : TryBuild α} {Q : α → Builder → Prop}
    (h : TrySpec (LayoutSteps p) step a.builder Q) :
    TrySpec (ChangesOnlyBuilder p) (build step) a fun x a' => Q x a'.builder :=
  ⟨⟨h.1, rfl, rfl, rfl⟩, h.2⟩

/-- A request that is a sequence of steps of the builder. -/
theorem build_steps {α : Type} {step : TryBuild α} {Q : α → Builder → Prop}
    (h : TrySpec (Builder.Steps p) step a.builder Q) (hlaid : a.builder.AllCallsWait p) :
    TrySpec (ChangesOnlyBuilder p) (build step) a fun x a' => Q x a'.builder ∧
    a'.builder.AllCallsWait p :=
  build_spec (layoutSteps_stepInvariant.lift h hlaid)

theorem countResolved_spec {R : Analysis → Analysis → Prop} [IsPreorder Analysis R]
    (hstats : ∀ a stats, R a { a with stats }) {isNew : Bool} :
    TrySpec R (countResolved isNew) a fun _ a' => a'.builder = a.builder := by
  refine .modify ?_ ?_
  · split
    · exact hstats a _
    · exact refl_of R a
  · dsimp only
    split <;> rfl

theorem ChangesOnlyBuilder.stats (a : Analysis) (stats : Stats) :
    ChangesOnlyBuilder p a { a with stats } :=
  ⟨refl_of (LayoutSteps p) a.builder, rfl, rfl, rfl⟩

/-! ## Callees -/

/-- A callee with a body that an object tells is recorded. -/
def CalleeRecorded (p : Program) (b : Builder) (stmt : StmtId) (obj : NodeId) : Prop :=
  ∀ i st m fn, p.invokeOf? stmt = some i → p.stmt? stmt = some st →
    p.resolve? b.pag i obj = some (m, fn) → p.hasBody m = true →
      ∃ f g, b.graph.methodOf? f = some st.method ∧ b.graph.methodOf? g = some m ∧
        b.graph.Calls f g .indirect stmt

/-- What an object tells about a call does not change. -/
theorem resolve?_congr {g g' : Pag} (hg : g.Extends g') {obj : NodeId} (ho : obj < g.nodes.size)
    (i : Invoke) : p.resolve? g' i obj = p.resolve? g i obj := by
  unfold Program.resolve?
  rw [hg.kind_eq ho]

theorem CalleeRecorded.mono {b b' : Builder} {stmt : StmtId} {obj : NodeId}
    (h : CalleeRecorded p b stmt obj)
    (hpag : b.pag.Extends b'.pag) (hgraph : b.graph.Grows b'.graph) (ho : obj < b.pag.nodes.size) :
    CalleeRecorded p b' stmt obj := by
  intro i st m fn hi hst hres hbody
  rw [resolve?_congr hpag ho] at hres
  obtain ⟨f, g, hf, hm, hcalls⟩ := h i st m fn hi hst hres hbody
  exact ⟨f, g, hgraph.method hf, hgraph.method hm, hgraph.calls hcalls⟩

/-- A callee that is found through a function object is the method of the object. -/
theorem resolve?_function {g : Pag} {i : Invoke} {obj : NodeId} {m : MethodSig}
    {fn : FunctionObject} (h : p.resolve? g i obj = some (m, some fn)) :
    m = fn.method ∧ (g.node? obj).map Node.kind = some (.function fn) := by
  unfold Program.resolve? at h
  split at h
  · rename_i hk
    cases h
    exact ⟨rfl, hk⟩
  · obtain ⟨_, -, h⟩ := Option.map_eq_some_iff.1 h
    cases h
  · cases h

/-- The node that the function object tells is that of its method. -/
theorem methodOf?_of_resolve? {b : Builder} (hb : b.Sound p) {i : Invoke} {obj : NodeId}
    {m : MethodSig} {fn : Option FunctionObject} (h : p.resolve? b.pag i obj = some (m, fn))
    {f : FuncId} (hf : fn.bind FunctionObject.func = some f) : b.graph.methodOf? f = some m := by
  obtain ⟨fn', rfl, hfunc⟩ := Option.bind_eq_some_iff.1 hf
  obtain ⟨rfl, hkind⟩ := resolve?_function h
  obtain ⟨node, hnode, hk⟩ := Option.map_eq_some_iff.1 hkind
  exact (hb.fits hnode).func hk hfunc

theorem resolvedBinding_spec {b : Builder} (hb : b.Sound p) {c : ModelCall} {at_ obj : NodeId}
    {callee : FuncId} {fn : Option FunctionObject} :
    Spec (Builder.Steps p) (resolvedBinding p c at_ obj callee fn) b fun _ _ => True := by
  cases fn with
  | some fn =>
    refine .get_bind (.seq (argNodes_spec hb _ _) fun args b₁ h₁ => ?_)
    exact .seq (resultNode?_spec (h₁.sound hb)) fun _ _ _ => .pure trivial
  | none =>
    have finish : ∀ (receiver : NodeId) b₁, b₁.Sound p → Spec (Builder.Steps p) (do
        let args ← argNodes p c.callerCid c.invoke.args 0
        let result ← resultNode? p c
        return ({ c.binding callee obj with thisSrc := some receiver, args, result } :
          CallBinding)) b₁ fun _ _ => True := fun receiver b₁ hb₁ =>
      .seq (argNodes_spec hb₁ _ _) fun args b₂ h₂ =>
        .seq (resultNode?_spec (h₂.sound hb₁)) fun _ _ _ => .pure trivial
    unfold resolvedBinding
    cases c.invoke.base with
    | some base =>
      exact .seq (valueNode_spec hb).any fun receiver b₁ h₁ => finish receiver b₁ (h₁.sound hb)
    | none => exact finish at_ b hb

/-- Only calls through pointers find a method of the program for a function object. -/
theorem resolve?_function_eq_none {g : Pag} {i : Invoke} {obj : NodeId} (hk : i.kind ≠ .pointer)
    (hfn : (g.function? obj).isSome = true) : p.resolve? g i obj = none := by
  obtain ⟨fn, hfn⟩ := Option.isSome_iff_exists.1 hfn
  obtain ⟨node, hnode, hkind⟩ := Option.bind_eq_some_iff.1 hfn
  unfold Program.resolve?
  rw [hnode, Option.map_some, NodeKind.eq_function_of_function? hkind]
  cases hkind' : i.kind with
  | pointer => exact absurd hkind' hk
  | _ => rfl

/-- The node of the callee is the one that the function object tells, or that of the method. -/
theorem callee_spec {b : Builder} {m : MethodSig} {fn : Option FunctionObject}
    (hfn : ∀ {f}, fn.bind FunctionObject.func = some f → b.graph.methodOf? f = some m) :
    TrySpec (Builder.Steps p) (match fn.bind FunctionObject.func with
      | some f => pure f
      | none => funcOf p m .virtual : TryBuild FuncId) b
      fun f b' => b'.graph.methodOf? f = some m := by
  split
  · rename_i f hf
    exact .pure (hfn hf)
  · exact .lift funcOf_spec

/-- The call is recorded, whether the callee is entered or not. -/
theorem callResolved_spec (hs : s.Sound) (hb : a.builder.Sound s.program)
    (hlaid : a.builder.AllCallsWait s.program) {c : ModelCall} {at_ obj : NodeId} {m : MethodSig}
    {fn : Option FunctionObject}
    (hfn : ∀ {f}, fn.bind FunctionObject.func = some f → a.builder.graph.methodOf? f = some m) :
    TrySpec (ChangesOnlyBuilder s.program) (callResolved s c at_ obj m fn) a fun _ a' =>
      a'.builder.AllCallsWait s.program ∧ ∃ g, a'.builder.graph.methodOf? g = some m ∧
        a'.builder.graph.Calls c.caller g .indirect c.stmt := by
  unfold callResolved
  dsimp only
  refine .bind (build_steps (callee_spec hfn) hlaid) ?_
  rintro callee a₁ h₁ ⟨hm, hlaid₁⟩
  have hb₁ := h₁.layoutSteps.sound hb
  refine .get_bind (.bind (build_steps (.lift addCall_spec) hlaid₁) ?_)
  rintro isNew a₂ h₂ ⟨hcalls, hlaid₂⟩
  have hb₂ := h₂.layoutSteps.sound hb₁
  refine .bind (countResolved_spec ChangesOnlyBuilder.stats) fun _ a₃ h₃ heq => ?_
  have hm₂ := h₂.layoutSteps.grows.graph.method hm
  rw [← heq] at hcalls hlaid₂ hb₂ hm₂
  -- The call is in the graph by now. Only entering the callee depends on whether it is recursive.
  split
  · have hconnect : TrySpec (LayoutSteps s.program) (do
        discard (connect s.program (enterNow s) (← resolvedBinding s.program c at_ obj callee fn)) :
          TryBuild Unit) a₃.builder fun _ b' => b'.AllCallsWait s.program := by
      refine .bind (layoutSteps_stepInvariant.lift (.lift (resolvedBinding_spec hb₂)) hlaid₂) ?_
      rintro binding b₁ h₁ ⟨-, hlaid₃⟩
      exact .discard (connect_allCallsWait hs (h₁.sound hb₂) hlaid₃)
    refine (build_spec hconnect).mono fun _ a₄ h₄ hlaid₄ => ?_
    exact ⟨hlaid₄, callee, h₄.layoutSteps.grows.graph.method hm₂,
      h₄.layoutSteps.grows.graph.calls hcalls⟩
  · exact .pure ⟨hlaid₂, callee, hm₂, hcalls⟩

theorem callBack_spec (hs : s.Sound) (hb : a.builder.Sound s.program)
    (hlaid : a.builder.AllCallsWait s.program) {c : ModelCall} {obj : NodeId} :
    TrySpec (ChangesOnlyBuilder s.program) (callBack s c obj) a fun _ a' =>
      a'.builder.AllCallsWait s.program := by
  unfold callBack
  refine .get_bind ?_
  split
  · refine .bind (build_steps (.lift functionCallee_any) hlaid) fun callee a₁ h₁ ⟨_, hlaid₁⟩ => ?_
    have hb₁ := h₁.layoutSteps.sound hb
    refine .bind (build_steps (.lift addCall_spec.any) hlaid₁) fun isNew a₂ h₂ ⟨_, hlaid₂⟩ => ?_
    have hb₂ := h₂.layoutSteps.sound hb₁
    refine .bind (countResolved_spec ChangesOnlyBuilder.stats) fun _ a₃ _ heq => ?_
    rw [← heq] at hlaid₂ hb₂
    exact build_spec (.discard (connect_allCallsWait hs hb₂ hlaid₂))
  · exact .pure hlaid

theorem leaveToModels_spec (hs : s.Sound) (hb : a.builder.Sound s.program)
    (hlaid : a.builder.AllCallsWait s.program) {c : ModelCall} {role : SiteRole} {obj : NodeId} :
    TrySpec (ChangesOnlyBuilder s.program) (leaveToModels s c role obj) a fun _ a' =>
      a'.builder.AllCallsWait s.program := by
  unfold leaveToModels
  refine .bind (build_spec (runModels_spec hs hb hlaid)) fun handled a₁ h₁ hlaid₁ => ?_
  dsimp only
  split
  · refine .bind (build_steps (.lift addUnhandled_spec) hlaid₁) fun _ a₂ _ ⟨_, hlaid₂⟩ => ?_
    exact .pure hlaid₂
  · exact .pure hlaid₁

/-! ## One call and one object -/

/-- The callee that the object tells is recorded if it has no body, or if the call is there. -/
theorem calleeRecorded_of_resolve {b : Builder} {stmt : StmtId} {st : Stmt} {i : Invoke}
    {obj : NodeId} (hi : p.invokeOf? stmt = some i) (hst : p.stmt? stmt = some st)
    (h : ∀ m fn, p.resolve? b.pag i obj = some (m, fn) → p.hasBody m = true →
      ∃ f g, b.graph.methodOf? f = some st.method ∧ b.graph.methodOf? g = some m ∧
        b.graph.Calls f g .indirect stmt) : CalleeRecorded p b stmt obj := by
  intro i' st' m fn hi' hst' hres hbody
  rw [hi] at hi'
  rw [hst] at hst'
  cases hi'
  cases hst'
  exact h m fn hres hbody

/-- How a call that waits for receivers is looked at for an object. -/
def receiverCall (s : Setting) (c : ModelCall) (n : NodeId) (role : SiteRole) (obj : NodeId) :
    TryAnalysis Unit := do
  match s.program.resolve? (← get).pag c.invoke obj with
  | some (m, fn) =>
    if s.program.hasBody m then callResolved s c n obj m fn
    else discard (leaveToModels s { c with callee := m } role obj)
  | none =>
    if !(← leaveToModels s c role obj) then
      build (c.positions.forM fun index => (watchArg s.program c index : Build Unit))

theorem receiverCall_spec (hs : s.Sound) (hb : a.builder.Sound s.program)
    (hlaid : a.builder.AllCallsWait s.program) (c : ModelCall) (n : NodeId) (role : SiteRole)
    {st : Stmt} {obj : NodeId} (hi : s.program.invokeOf? c.stmt = some c.invoke)
    (hst : s.program.stmt? c.stmt = some st)
    (hcaller : a.builder.graph.methodOf? c.caller = some st.method) (ho : obj < a.pag.nodes.size) :
    TrySpec (ChangesOnlyBuilder s.program) (receiverCall s c n role obj) a fun _ a' =>
      a'.builder.AllCallsWait s.program ∧ CalleeRecorded s.program a'.builder c.stmt obj := by
  refine .get_bind ?_
  -- What the object tells is known now, and does not change any more.
  have told : ∀ {a' : Analysis}, ChangesOnlyBuilder s.program a a' →
      s.program.resolve? a'.builder.pag c.invoke obj = s.program.resolve? a.pag c.invoke obj :=
    fun h => resolve?_congr h.layoutSteps.grows.pag ho c.invoke
  split
  · rename_i m fn hres
    split
    · refine (callResolved_spec hs hb hlaid (methodOf?_of_resolve? hb hres)).mono ?_
      intro _ a₁ h₁ ⟨hlaid₁, g, hg, hcalls⟩
      refine ⟨hlaid₁, calleeRecorded_of_resolve hi hst fun m' fn' hres' _ => ?_⟩
      rw [told h₁, hres] at hres'
      cases hres'
      exact ⟨c.caller, g, h₁.layoutSteps.grows.graph.method hcaller, hg, hcalls⟩
    · rename_i hbody
      refine .discard ((leaveToModels_spec hs hb hlaid).mono fun _ a₁ h₁ hlaid₁ => ?_)
      refine ⟨hlaid₁, calleeRecorded_of_resolve hi hst fun m' fn' hres' hbody' => ?_⟩
      rw [told h₁, hres] at hres'
      cases hres'
      exact absurd hbody' hbody
  · rename_i hres
    have untold : ∀ {a' : Analysis}, ChangesOnlyBuilder s.program a a' →
        CalleeRecorded s.program a'.builder c.stmt obj := fun h =>
      calleeRecorded_of_resolve hi hst fun m' fn' hres' => by
        rw [told h, hres] at hres'
        cases hres'
    refine .bind (leaveToModels_spec hs hb hlaid) fun taken a₁ h₁ hlaid₁ => ?_
    have hb₁ := h₁.layoutSteps.sound hb
    split
    · have hwatch : TrySpec (Builder.Steps s.program) (c.positions.forM fun index =>
          (watchArg s.program c index : Build Unit) : TryBuild Unit) a₁.builder
          fun _ _ => True :=
        .forM_any fun _ _ _ h => .lift (watchArg_spec (h.sound hb₁))
      refine (build_steps hwatch hlaid₁).mono fun _ a₂ h₂ ⟨_, hlaid₂⟩ => ?_
      exact ⟨hlaid₂, untold (trans_of (ChangesOnlyBuilder s.program) h₁ h₂)⟩
    · exact .pure ⟨hlaid₁, untold h₁⟩

theorem processSite_calleeRecorded (hs : s.Sound) (hb : a.builder.Sound s.program)
    (hlaid : a.builder.AllCallsWait s.program) {n obj : NodeId} {site : SiteRef}
    (ho : obj < a.pag.nodes.size) :
    TrySpec (ChangesOnlyBuilder s.program) (processSite s n site obj) a fun _ a' =>
      a'.builder.AllCallsWait s.program ∧
        ((∀ index, site.role ≠ .arg index) →
          CalleeRecorded s.program a'.builder site.stmt obj) := by
  unfold processSite
  dsimp only
  split
  · rename_i invoke stmt hinvoke hstmt
    refine .get_bind ?_
    split
    · exact .throw
    · rename_i node hnode
      refine .bind (build_steps (.lift funcOf_spec) hlaid) fun caller a₁ h₁ ⟨hcaller, hlaid₁⟩ => ?_
      have hb₁ := h₁.layoutSteps.sound hb
      refine .get_bind ?_
      split
      · rename_i index hrole
        have harg : ¬∀ index, site.role ≠ .arg index := fun h => h index hrole
        refine .bind (build_spec (runModels_spec hs hb₁ hlaid₁)) fun taken a₂ h₂ hlaid₂ => ?_
        split
        · refine (callBack_spec hs (h₂.layoutSteps.sound hb₁) hlaid₂).mono fun _ a₃ h₃ hlaid₃ => ?_
          exact ⟨hlaid₃, fun h => absurd h harg⟩
        · exact .pure ⟨hlaid₂, fun h => absurd h harg⟩
      · let c : ModelCall := {
          stmt := site.stmt, caller, callerCid := node.cid
          site := siteAt a₁.builder.graph site.stmt
          callee := invoke.method, invoke, result := stmt.defValue? }
        have hcall := receiverCall_spec hs hb₁ hlaid₁ c n site.role hinvoke hstmt hcaller
          (h₁.layoutSteps.grows.pag.lt ho)
        exact hcall.mono fun _ a₂ _ ⟨hlaid₂, hrecorded⟩ => ⟨hlaid₂, fun _ => hrecorded⟩
  · rename_i hnone
    refine .pure ⟨hlaid, fun _ i st m fn hi hst => ?_⟩
    exact absurd hst (hnone i st hi)

/-! ## Calls that were looked at -/

/-- The call that waits at `n` was looked at for the object, some time ago. Whatever this has led to
that does not go away again can be read off here. -/
structure Looked (p : Program) (b : Builder) (n : NodeId) (site : SiteRef) (obj : NodeId) :
    Prop where
  run : ∃ (s : Setting) (a a' : Analysis), s.program = p ∧ s.IsStandard ∧ a.builder.Sound p ∧
    a.builder.AllCallsWait p ∧ obj < a.pag.nodes.size ∧
    (processSite s n site obj).run.run a = (.ok (), a') ∧ a'.pag.Extends b.pag ∧
    a'.builder.graph.Grows b.graph ∧ a'.builder.built ⊆ b.built

namespace Looked

variable {b b' : Builder} {n obj : NodeId} {site : SiteRef}

theorem mono (h : Looked p b n site obj) (hpag : b.pag.Extends b'.pag)
    (hgraph : b.graph.Grows b'.graph) (hbuilt : b.built ⊆ b'.built) : Looked p b' n site obj := by
  obtain ⟨s, a, a', hs, hstandard, hb, hlaid, ho, hrun, hpag', hgraph', hbuilt'⟩ := h.run
  exact ⟨s, a, a', hs, hstandard, hb, hlaid, ho, hrun, hpag'.trans hpag, hgraph'.trans hgraph,
    List.Subset.trans hbuilt' hbuilt⟩

/-- If the call waits for a receiver, what the object tells about it is recorded. -/
theorem calleeRecorded (h : Looked p b n site obj) (hrole : ∀ index, site.role ≠ .arg index) :
    CalleeRecorded p b site.stmt obj := by
  obtain ⟨s, a, a', rfl, hs, hb, hlaid, ho, hrun, hpag, hgraph, -⟩ := h.run
  obtain ⟨hbuild, -, hrecorded⟩ := (processSite_calleeRecorded hs.sound hb hlaid ho).of_run hrun
  exact (hrecorded hrole).mono hpag hgraph (hbuild.layoutSteps.grows.pag.lt ho)

end Looked

theorem processSite_spec (hs : s.IsStandard) (hb : a.builder.Sound s.program)
    (hlaid : a.builder.AllCallsWait s.program) {n obj : NodeId} {site : SiteRef}
    (ho : obj < a.pag.nodes.size) :
    TrySpec (ChangesOnlyBuilder s.program) (processSite s n site obj) a fun _ a' =>
      a'.builder.AllCallsWait s.program ∧ Looked s.program a'.builder n site obj := by
  have hgoes : TrySpec (ChangesOnlyBuilder s.program) (processSite s n site obj) a _ :=
    processSite_calleeRecorded hs.sound hb hlaid ho
  obtain ⟨hbuild, hdone⟩ := hgoes
  refine ⟨hbuild, fun x hx => ⟨(hdone x hx).1, ?_⟩⟩
  exact ⟨s, a, _, rfl, hs, hb, hlaid, ho, Prod.ext hx rfl, .rfl, .rfl, List.Subset.refl _⟩

end PointsTo.Analysis
