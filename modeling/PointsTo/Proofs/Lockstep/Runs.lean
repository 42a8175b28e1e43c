import PointsTo.Proofs.Analysis.Rounds
import PointsTo.Proofs.Lockstep.Layout
import PointsTo.Proofs.Lockstep.Propagation

/-!
# Runs in lockstep

Two runs from analyses alike go the same way, with one exception. A call that is found through an
object is not followed if it would close a cycle of calls, and that is read off the edges of the
call graph. If the second graph has more edges than the first, the second run may leave out a call
that the first one follows. Then the second run has a call that *closes a cycle*
(`Analysis.ClosesCycle`), and has it from then on.
-/

namespace PointsTo

/-- The setting makes runs that can be compared with runs of another bound for loops. -/
structure Setting.Comparable (cmp : Comparison) (s : Setting) (fuel : Nat) : Prop where
  standard : s.IsStandard
  fuel : cmp.strict → fuel = s.fuel

theorem Setting.Comparable.respects {cmp : Comparison} {s : Setting} {fuel : Nat}
    (h : s.Comparable cmp fuel) : s.Respects cmp := by
  unfold Setting.Respects
  rw [show s.models = LibraryModel.standard from h.standard]
  exact LibraryModel.standard_respects cmp s.program

namespace Analysis

open Builder (AllCallsWait)
open Build

variable {cmp : Comparison} {s : Setting} {p : Program} {fuel : Nat} {a a' : Analysis} {α β : Type}

/-! ## Calls that close cycles -/

/-- As some object tells, the statement of `f` calls `g`, and the call is recorded. -/
def Resolves (p : Program) (a : Analysis) (stmt : StmtId) (f g : FuncId) : Prop :=
  ∃ i st obj m fn, p.invokeOf? stmt = some i ∧ p.stmt? stmt = some st ∧ obj < a.pag.nodes.size ∧
    p.resolve? a.pag i obj = some (m, fn) ∧ p.hasBody m = true ∧
    a.builder.graph.methodOf? f = some st.method ∧ a.builder.graph.methodOf? g = some m ∧
    a.builder.graph.Calls f g .indirect stmt

/-- A call that an object tells leads back to the caller, but not along the calls known before. -/
def ClosesCycle (p : Program) (known : List (FuncId × FuncId)) (a : Analysis) : Prop :=
  ∃ stmt f g, a.Resolves p stmt f g ∧ f ≠ g ∧ a.builder.graph.reachable g f = true ∧
    ¬Reach.Leads known g f

theorem Resolves.mono {stmt : StmtId} {f g : FuncId} (h : a.Resolves p stmt f g)
    (hpag : a.pag.Extends a'.pag) (hgraph : a.builder.graph.Grows a'.builder.graph) :
    a'.Resolves p stmt f g := by
  obtain ⟨i, st, obj, m, fn, hi, hst, ho, hres, hbody, hf, hg, hcalls⟩ := h
  refine ⟨i, st, obj, m, fn, hi, hst, hpag.lt ho, ?_, hbody, hgraph.method hf, hgraph.method hg,
    hgraph.calls hcalls⟩
  rw [resolve?_congr hpag ho]
  exact hres

theorem ClosesCycle.mono {known : List (FuncId × FuncId)} (h : a.ClosesCycle p known)
    (hsteps : Steps p a a') : a'.ClosesCycle p known := by
  obtain ⟨stmt, f, g, hres, hne, hreach, hknown⟩ := h
  obtain ⟨hpag, hgraph⟩ := hsteps.extends
  exact ⟨stmt, f, g, hres.mono hpag hgraph, hne,
    CallGraph.reachable_mono hgraph.size hgraph.links hreach, hknown⟩

/-- The second run goes as the first one, as far as fuel allows, or has a call that closes a
cycle. -/
def Follows (cmp : Comparison) (p : Program) (m m' : TryAnalysis α) (a a' : Analysis) : Prop :=
  TryMatch cmp.strict (Alike cmp) m m' a a' ∨
    ¬cmp.sameEdges ∧ (m'.run.run a').2.ClosesCycle p cmp.known

namespace Follows

variable {m m' : TryAnalysis α} {f f' : α → TryAnalysis β} {P : α → Analysis → Prop}

theorem of_respects (hm : TryRespects cmp.strict (Alike cmp) m m') (h : a.Alike cmp a') :
    Follows cmp p m m' a a' :=
  Or.inl (hm h)

theorem get_bind {f f' : Analysis → TryAnalysis α} (h : Follows cmp p (f a) (f' a') a a') :
    Follows cmp p (get >>= f) (get >>= f') a a' :=
  h

theorem modify_bind {f : Analysis → Analysis} {k k' : PUnit → TryAnalysis α}
    (h : Follows cmp p (k ⟨⟩) (k' ⟨⟩) (f a) (f a')) :
    Follows cmp p (MonadState.modifyGet (fun a => (⟨⟩, f a)) >>= k)
      (MonadState.modifyGet (fun a => (⟨⟩, f a)) >>= k') a a' :=
  h

/-- If the first part closes a cycle, what follows does not undo that. -/
theorem seq (gm : TrySpec (Steps p) m' a' P) (hm : Follows cmp p m m' a a')
    (hf : ∀ x t t', Steps p a' t' → P x t' → t.Alike cmp t' → Follows cmp p (f x) (f' x) t t')
    (gf : ∀ x t', Steps p a' t' → P x t' → TrySpec (Steps p) (f' x) t' fun _ _ => True) :
    Follows cmp p (m >>= f) (m' >>= f') a a' := by
  obtain ⟨hsteps, hp⟩ := gm
  rcases hm with (⟨heq, h⟩ | ⟨hs, h⟩) | ⟨hs, hc⟩
  · cases hx : (m'.run.run a').1 with
    | error e => exact Or.inl (.of_error (heq.trans hx) hx h)
    | ok x =>
      rcases hf x _ _ hsteps (hp x hx) h with hrest | ⟨hs, hc⟩
      · exact Or.inl (.of_ok (heq.trans hx) hx hrest)
      · refine Or.inr ⟨hs, ?_⟩
        rw [run_bind_ok hx]
        exact hc
  · exact Or.inl (.of_starves hs h)
  · refine Or.inr ⟨hs, ?_⟩
    cases hx : (m'.run.run a').1 with
    | error e =>
      rw [run_bind_error hx]
      exact hc
    | ok x =>
      rw [run_bind_ok hx]
      exact hc.mono (gf x _ hsteps (hp x hx)).1

/-- The first part goes the same way. -/
theorem bind (gm : TrySpec (Steps p) m' a' P) (hm : TryRespects cmp.strict (Alike cmp) m m')
    (h : a.Alike cmp a')
    (hf : ∀ x t t', Steps p a' t' → P x t' → t.Alike cmp t' → Follows cmp p (f x) (f' x) t t') :
    Follows cmp p (m >>= f) (m' >>= f') a a' := by
  obtain ⟨hsteps, hp⟩ := gm
  rcases hm h with ⟨heq, h₁⟩ | ⟨hs, hstarve⟩
  · cases hx : (m'.run.run a').1 with
    | error e => exact Or.inl (.of_error (heq.trans hx) hx h₁)
    | ok x =>
      rcases hf x _ _ hsteps (hp x hx) h₁ with hrest | ⟨hs, hc⟩
      · exact Or.inl (.of_ok (heq.trans hx) hx hrest)
      · refine Or.inr ⟨hs, ?_⟩
        rw [run_bind_ok hx]
        exact hc
  · exact Or.inl (.of_starves hs hstarve)

/-- A loop, of which every round keeps an invariant of the second run. -/
theorem forM {xs : List α} {f f' : α → TryAnalysis PUnit} {I : Analysis → Prop}
    (h : a.Alike cmp a') (init : I a')
    (gf : ∀ x ∈ xs, ∀ t', Steps p a' t' → I t' → TrySpec (Steps p) (f' x) t' fun _ t'' => I t'')
    (hf : ∀ x ∈ xs, ∀ t t', Steps p a' t' → I t' → t.Alike cmp t' →
      Follows cmp p (f x) (f' x) t t') : Follows cmp p (xs.forM f) (xs.forM f') a a' := by
  induction xs generalizing a a' with
  | nil => exact of_respects .pure h
  | cons x xs ih =>
    refine seq (gf x (by simp) a' (refl_of (Steps p) a') init)
      (hf x (by simp) a a' (refl_of (Steps p) a') init h) ?_ ?_
    · intro _ t t' hsteps hi ht
      refine ih ht hi (fun y hy t'' h'' => ?_) fun y hy u u' h'' => ?_
      · exact gf y (by simp [hy]) t'' (trans_of (Steps p) hsteps h'')
      · exact hf y (by simp [hy]) u u' (trans_of (Steps p) hsteps h'')
    · intro _ t' hsteps hi
      refine (TrySpec.forM_invariant (P := fun _ _ => True) (fun _ _ _ _ _ => trivial) hi ?_).any
      intro y hy t'' h'' hi''
      refine (gf y (by simp [hy]) t'' (trans_of (Steps p) hsteps h'') hi'').mono ?_
      exact fun _ _ _ hi₃ => ⟨hi₃, trivial⟩

end Follows

/-! ## Steps of the builder -/

theorem build_respects {step step' : TryBuild α}
    (h : TryRespects cmp.strict (Builder.Alike cmp) step step') :
    TryRespects cmp.strict (Alike cmp) (build step) (build step') := by
  intro a a' ha
  rcases h ha.builder with ⟨heq, hb⟩ | hstarve
  · exact Or.inl ⟨heq, { ha with builder := hb }⟩
  · exact Or.inr hstarve

/-- The analysis with one more call recorded, and counted if it is new. -/
def record (a : Analysis) (caller callee : FuncId) (stmt : StmtId) : Analysis :=
  ((do countResolved (← build (addCall caller callee stmt .indirect)) : TryAnalysis Unit).run.run
    a).2

theorem record_eq (a : Analysis) (caller callee : FuncId) (stmt : StmtId) :
    a.record caller callee stmt = { a with
      builder := { a.builder with
        graph := (a.builder.graph.addCall caller callee stmt .indirect).2 }
      stats := { a.stats with dynCallsResolved := a.stats.dynCallsResolved +
        if (a.builder.graph.addCall caller callee stmt .indirect).1 then 1 else 0 } } := by
  show (if (a.builder.graph.addCall caller callee stmt .indirect).1 then _ else _) = _
  split <;> rfl

theorem Alike.record (h : a.Alike cmp a') (caller callee : FuncId) (stmt : StmtId) :
    (a.record caller callee stmt).Alike cmp (a'.record caller callee stmt) := by
  obtain ⟨hnew, hgraph⟩ := h.builder.graph.addCall caller callee stmt .indirect
  rw [record_eq, record_eq]
  exact { h with
    builder := { h.builder with graph := hgraph }
    stats := fun hs => by rw [h.stats hs, hnew (cmp.sameEdges_of_strict hs)] }

/-- What follows does not depend on whether the call is new. -/
theorem record_respects {caller callee : FuncId} {stmt : StmtId} {k k' : TryAnalysis α}
    (hk : TryRespects cmp.strict (Alike cmp) k k') : TryRespects cmp.strict (Alike cmp)
      (do countResolved (← build (addCall caller callee stmt .indirect)); k)
      (do countResolved (← build (addCall caller callee stmt .indirect)); k') :=
  fun _ _ h => hk (h.record caller callee stmt)

/-! ## One call and one object -/

theorem callee_respects {m : MethodSig} {fn : Option FunctionObject} :
    TryRespects cmp.strict (Builder.Alike cmp) (match fn.bind FunctionObject.func with
      | some f => pure f
      | none => funcOf p m .virtual : TryBuild FuncId) (match fn.bind FunctionObject.func with
      | some f => pure f
      | none => funcOf p m .virtual) := by
  split
  · exact .pure
  · exact .lift funcOf_respects

theorem resolvedBinding_respects {c : ModelCall} {at_ obj : NodeId} {callee : FuncId}
    {fn : Option FunctionObject} :
    Respects (Builder.Alike cmp) (resolvedBinding p c at_ obj callee fn) := by
  cases fn with
  | some fn =>
    refine .get_bind fun b b' h => ?_
    rw [h.pag.cid]
    refine (Respects.bind (argNodes_respects _ _) fun args => ?_).apply h
    exact .bind resultNode?_respects fun _ => .pure
  | none =>
    have finish : ∀ receiver : NodeId, Respects (Builder.Alike cmp) (do
        let args ← argNodes p c.callerCid c.invoke.args 0
        let result ← resultNode? p c
        return ({ c.binding callee obj with thisSrc := some receiver, args, result } :
          CallBinding)) := fun _ =>
      .bind (argNodes_respects _ _) fun _ => .bind resultNode?_respects fun _ => .pure
    unfold resolvedBinding
    cases c.invoke.base with
    | some base => exact .bind valueNode_respects finish
    | none => exact .bind .pure finish

theorem connectResolved_respects (hs : s.Comparable cmp fuel) {c : ModelCall} {at_ obj : NodeId}
    {callee : FuncId} {fn : Option FunctionObject} : TryRespects cmp.strict (Alike cmp)
      (build do discard (connect s.program (enterNow s)
        (← resolvedBinding s.program c at_ obj callee fn)))
      (build do discard (connect s.program (enterNow (s.withFuel fuel))
        (← resolvedBinding s.program c at_ obj callee fn))) :=
  build_respects (.bind (.lift resolvedBinding_respects) fun _ =>
    .discard (connect_respects (enterNow_respects hs.respects hs.fuel)))

/-- If the callee is reached in the second call graph only, the second run records a call that
closes a cycle, and does not follow it. -/
theorem closesCycle_record {known : List (FuncId × FuncId)} {c : ModelCall} {st : Stmt}
    {obj : NodeId} {m : MethodSig} {fn : Option FunctionObject} {callee : FuncId}
    (hi : p.invokeOf? c.stmt = some c.invoke) (hst : p.stmt? c.stmt = some st)
    (ho : obj < a.pag.nodes.size) (hres : p.resolve? a.pag c.invoke obj = some (m, fn))
    (hbody : p.hasBody m = true) (hcaller : a.builder.graph.methodOf? c.caller = some st.method)
    (hcallee : a.builder.graph.methodOf? callee = some m) (hne : callee ≠ c.caller)
    (hreach : a.builder.graph.reachable callee c.caller = true)
    (hknown : ¬Reach.Leads known callee c.caller) :
    (a.record c.caller callee c.stmt).ClosesCycle p known := by
  have hgrows := a.builder.graph.addCall_grows c.caller callee c.stmt .indirect
  rw [record_eq]
  refine ⟨c.stmt, c.caller, callee, ?_, hne.symm, ?_, hknown⟩
  · exact ⟨c.invoke, st, obj, m, fn, hi, hst, ho, hres, hbody, hgrows.method hcaller,
      hgrows.method hcallee, CallGraph.calls_addCall _ _ _ _ _⟩
  · exact CallGraph.reachable_mono hgrows.size hgrows.links hreach

theorem callResolved_follows (hs : s.Comparable cmp fuel) (h : a.Alike cmp a')
    (hb : a'.builder.Sound s.program) (hlaid : a'.builder.AllCallsWait s.program) {c : ModelCall}
    {at_ obj : NodeId} {m : MethodSig} {fn : Option FunctionObject} {st : Stmt}
    (hi : s.program.invokeOf? c.stmt = some c.invoke) (hst : s.program.stmt? c.stmt = some st)
    (hcaller : a'.builder.graph.methodOf? c.caller = some st.method) (ho : obj < a'.pag.nodes.size)
    (hres : s.program.resolve? a'.pag c.invoke obj = some (m, fn))
    (hbody : s.program.hasBody m = true) :
    Follows cmp s.program (callResolved s c at_ obj m fn)
      (callResolved (s.withFuel fuel) c at_ obj m fn) a a' := by
  have hcallee : TrySpec (Steps s.program) _ a' _ :=
    changesOnlyBuilder_spec (build_steps (callee_spec (methodOf?_of_resolve? hb hres)) hlaid)
  refine .bind hcallee (build_respects callee_respects) h ?_
  rintro callee a₁ a₁' - ⟨hbuild, hm, -⟩ h₁
  -- From here on the runs only differ in whether the call is taken to be recursive.
  have same : ∀ isRecursive, Follows cmp s.program (do
      countResolved (← build (addCall c.caller callee c.stmt .indirect))
      if !isRecursive then build do discard (connect s.program (enterNow s)
        (← resolvedBinding s.program c at_ obj callee fn)))
    (do
      countResolved (← build (addCall c.caller callee c.stmt .indirect))
      if !isRecursive then build do discard (connect s.program (enterNow (s.withFuel fuel))
        (← resolvedBinding s.program c at_ obj callee fn))) a₁ a₁' := by
    intro isRecursive
    refine .of_respects (record_respects ?_) h₁
    cases isRecursive with
    | true => exact .pure
    | false => exact connectResolved_respects hs
  show Follows cmp s.program (do
      countResolved (← build (addCall c.caller callee c.stmt .indirect))
      if !(callee == c.caller || a₁.builder.graph.reachable callee c.caller) then _)
    (do
      countResolved (← build (addCall c.caller callee c.stmt .indirect))
      if !(callee == c.caller || a₁'.builder.graph.reachable callee c.caller) then _) a₁ a₁'
  by_cases hne : callee = c.caller
  · rw [beq_iff_eq.2 hne, Bool.true_or, Bool.true_or]
    exact same true
  · rw [beq_eq_false_iff_ne.2 hne, Bool.false_or, Bool.false_or]
    have hgraph := h₁.builder.graph
    have hcaller₁ := hbuild.layoutSteps.grows.graph.method hcaller
    cases hr : a₁.builder.graph.reachable callee c.caller with
    | true =>
      rw [hgraph.reachable hr]
      exact same true
    | false =>
      cases hr' : a₁'.builder.graph.reachable callee c.caller with
      | false => exact same false
      | true =>
        -- The second run takes the call to be recursive, and ends here.
        refine Or.inr ⟨fun hsame => ?_, ?_⟩
        · have heq := hgraph.reachable_eq hsame callee c.caller
          rw [hr, hr'] at heq
          cases heq
        · show (a₁'.record c.caller callee c.stmt).ClosesCycle s.program cmp.known
          have hpag := hbuild.layoutSteps.grows.pag
          have hres₁ := (resolve?_congr hpag ho c.invoke).trans hres
          refine closesCycle_record hi hst (hpag.lt ho) hres₁ hbody hcaller₁ hm hne hr' ?_
          intro hleads
          have hreach := hgraph.reachable_of_known hm hcaller₁ hleads
          rw [hr] at hreach
          cases hreach

theorem callBack_respects (hs : s.Comparable cmp fuel) {c : ModelCall} {obj : NodeId} :
    TryRespects cmp.strict (Alike cmp) (callBack s c obj) (callBack (s.withFuel fuel) c obj) := by
  refine .get_bind fun a a' h => ?_
  rw [h.pag.function?]
  refine TryRespects.apply ?_ h
  cases a.pag.function? obj with
  | none => exact .pure
  | some fn =>
    refine .bind (build_respects (.lift functionCallee_respects)) fun callee => ?_
    refine record_respects (build_respects (.discard ?_))
    exact connect_respects (enterNow_respects hs.respects hs.fuel)

theorem leaveToModels_respects (hs : s.Comparable cmp fuel) {c : ModelCall} {role : SiteRole}
    {obj : NodeId} : TryRespects cmp.strict (Alike cmp) (leaveToModels s c role obj)
      (leaveToModels (s.withFuel fuel) c role obj) := by
  refine .bind (build_respects (runModels_respects hs.respects hs.fuel)) fun handled => ?_
  dsimp only
  split
  · exact .bind (build_respects (.lift addUnhandled_respects)) fun _ => .pure
  · exact .pure

theorem siteAt_congr {g g' : CallGraph} (h : g.Alike cmp g') (stmt : StmtId) :
    siteAt g' stmt = siteAt g stmt := by
  unfold siteAt
  rw [h.dynSiteAt?, h.sitesAt]

theorem resolve?_alike {g g' : Pag} (h : g.Alike g') (i : Invoke) (obj : NodeId) :
    p.resolve? g' i obj = p.resolve? g i obj := by
  unfold Program.resolve?
  rw [h.kind]

theorem receiverCall_follows (hs : s.Comparable cmp fuel) (h : a.Alike cmp a')
    (hb : a'.builder.Sound s.program) (hlaid : a'.builder.AllCallsWait s.program) (c : ModelCall)
    (n : NodeId) (role : SiteRole) {st : Stmt} {obj : NodeId}
    (hi : s.program.invokeOf? c.stmt = some c.invoke) (hst : s.program.stmt? c.stmt = some st)
    (hcaller : a'.builder.graph.methodOf? c.caller = some st.method)
    (ho : obj < a'.pag.nodes.size) : Follows cmp s.program (receiverCall s c n role obj)
      (receiverCall (s.withFuel fuel) c n role obj) a a' := by
  have hread : s.program.resolve? a.pag c.invoke obj = s.program.resolve? a'.pag c.invoke obj :=
    (resolve?_alike h.pag c.invoke obj).symm
  refine .get_bind ?_
  rw [Setting.program_withFuel, hread]
  cases hres : s.program.resolve? a'.pag c.invoke obj with
  | some r =>
    obtain ⟨m, fn⟩ := r
    dsimp only
    split
    · rename_i hbody
      exact callResolved_follows hs h hb hlaid hi hst hcaller ho hres hbody
    · exact .of_respects (.discard (leaveToModels_respects hs)) h
  | none =>
    refine .of_respects (.bind (leaveToModels_respects hs) fun taken => ?_) h
    split
    · exact build_respects (.forM fun _ _ => .lift watchArg_respects)
    · exact .pure

theorem processSite_follows (hs : s.Comparable cmp fuel) (h : a.Alike cmp a')
    (hb : a'.builder.Sound s.program) (hlaid : a'.builder.AllCallsWait s.program) {n obj : NodeId}
    {site : SiteRef} (ho : obj < a'.pag.nodes.size) : Follows cmp s.program
      (processSite s n site obj) (processSite (s.withFuel fuel) n site obj) a a' := by
  unfold processSite
  simp only [Setting.program_withFuel]
  cases hinvoke : s.program.invokeOf? site.stmt with
  | none => exact .of_respects .pure h
  | some invoke =>
    cases hstmt : s.program.stmt? site.stmt with
    | none => exact .of_respects .pure h
    | some stmt =>
      refine .get_bind ?_
      rcases h.pag.cases n with ⟨x, y, hx, hy, hxy⟩ | ⟨hx, hy⟩
      · rw [hx, hy]
        have hfunc : TrySpec (Steps s.program) (build (funcOf s.program stmt.method .blank)) a' _ :=
          changesOnlyBuilder_spec (build_steps (.lift funcOf_spec) hlaid)
        refine .bind hfunc (build_respects (.lift funcOf_respects)) h ?_
        rintro caller a₁ a₁' - ⟨hbuild, hcaller, hlaid₁⟩ h₁
        refine .get_bind ?_
        rw [← siteAt_congr h₁.builder.graph, ← hxy.cid]
        let c : ModelCall := {
          stmt := site.stmt, caller, callerCid := y.cid
          site := siteAt a₁'.builder.graph site.stmt
          callee := invoke.method, invoke, result := stmt.defValue? }
        have hreceiver := fun role =>
          receiverCall_follows hs h₁ (hbuild.layoutSteps.sound hb) hlaid₁ c n
          role hinvoke hstmt hcaller (hbuild.layoutSteps.grows.pag.lt ho)
        generalize site.role = role
        cases role with
        | arg index =>
          refine .of_respects (.bind (build_respects ?_) fun taken => ?_) h₁
          · exact runModels_respects hs.respects hs.fuel
          · split
            · exact callBack_respects hs
            · exact .pure
        | receiver => exact hreceiver .receiver
        | unknown => exact hreceiver .unknown
      · rw [hx, hy]
        exact .of_respects .throw h

/-! ## All calls -/

theorem lookForEach_follows (hs : s.Comparable cmp fuel) (h : a.Alike cmp a')
    (ha : a'.Grounded s.program) (hlaid : a'.builder.AllCallsWait s.program) {n : NodeId}
    {site : SiteRef} {objs : List NodeId} (hobjs : ∀ o ∈ objs, o < a'.pag.nodes.size) :
    Follows cmp s.program (objs.forM (processSite s n site))
      (objs.forM (processSite (s.withFuel fuel) n site)) a a' := by
  refine .forM (I := fun t' => t'.builder.AllCallsWait s.program) h hlaid ?_ ?_
  · intro o ho t' ht hlaid'
    have hgoes : TrySpec _ (processSite (s.withFuel fuel) n site o) t' _ :=
      processSite_spec (s := s.withFuel fuel) hs.standard (ht.grounded ha).sound hlaid'
        (ht.extends.1.lt (hobjs o ho))
    exact (changesOnlyBuilder_spec hgoes).mono fun _ _ _ hp => hp.2.1
  · intro o ho t t' ht hlaid' h'
    exact processSite_follows hs h' (ht.grounded ha).sound hlaid' (ht.extends.1.lt (hobjs o ho))

theorem lookAtArrivals_follows (hs : s.Comparable cmp fuel) (h : a.Alike cmp a')
    (ha : a'.Grounded s.program) (hlaid : a'.builder.AllCallsWait s.program)
    {arrivals : List (NodeId × List NodeId)}
    (harr : ∀ x ∈ arrivals, ∀ o ∈ x.2, o < a'.pag.nodes.size) : Follows cmp s.program
      (arrivals.forM fun (n, objs) => do
        ((← get).pag.sitesOf n).forM fun site => objs.forM (processSite s n site))
      (arrivals.forM fun (n, objs) => do
        ((← get).pag.sitesOf n).forM fun site =>
          objs.forM (processSite (s.withFuel fuel) n site)) a a' := by
  refine .forM (I := fun t' => t'.builder.AllCallsWait s.program) h hlaid ?_ ?_
  · rintro ⟨n, objs⟩ hx t' ht hlaid'
    have hgoes := (looked_established (s := s.withFuel fuel) hs.standard).lookAt (n := n)
      (ht.grounded ha) hlaid' fun o ho => ht.extends.1.lt (harr _ hx o ho)
    exact .get_bind ((changesOnlyBuilder_spec hgoes).mono fun _ _ _ hp => hp.2.1)
  · rintro ⟨n, objs⟩ hx t t' ht hlaid' h'
    refine .get_bind ?_
    rw [← h'.pag.sitesOf]
    -- For each call at the node, the objects are gone through.
    refine .forM (I := fun t' => t'.builder.AllCallsWait s.program) h' hlaid' ?_ ?_
    · intro site _ u' hu hlaid₁
      have hsteps := trans_of (Steps s.program) ht hu
      have hgoes : TrySpec _ (objs.forM (processSite (s.withFuel fuel) n site)) u' _ :=
        (looked_established (s := s.withFuel fuel) hs.standard).lookForEach
          (hsteps.grounded ha) hlaid₁ fun o ho => hsteps.extends.1.lt (harr _ hx o ho)
      exact (changesOnlyBuilder_spec hgoes).mono fun _ _ _ hp => hp.2.1
    · intro site _ u u' hu hlaid₁ h₁
      have hsteps := trans_of (Steps s.program) ht hu
      exact lookForEach_follows hs h₁ (hsteps.grounded ha) hlaid₁
        fun o ho => hsteps.extends.1.lt (harr _ hx o ho)

theorem lookAtNewSites_follows (hs : s.Comparable cmp fuel) (h : a.Alike cmp a')
    (ha : a'.Grounded s.program) (hlaid : a'.builder.AllCallsWait s.program)
    {sites : List (NodeId × SiteRef)} : Follows cmp s.program
      (sites.forM fun (n, site) => do ((← get).pag.ptsOf n).forM (processSite s n site))
      (sites.forM fun (n, site) => do
        ((← get).pag.ptsOf n).forM (processSite (s.withFuel fuel) n site)) a a' := by
  refine .forM (I := fun t' => t'.builder.AllCallsWait s.program) h hlaid ?_ ?_
  · rintro ⟨n, site⟩ - t' ht hlaid'
    have ha' := ht.grounded ha
    have hgoes : TrySpec _ ((t'.pag.ptsOf n).forM (processSite (s.withFuel fuel) n site)) t' _ :=
      (looked_established (s := s.withFuel fuel) hs.standard).lookForEach ha' hlaid'
        fun o ho => ha'.lt_of_mem_ptsOf ho
    exact .get_bind ((changesOnlyBuilder_spec hgoes).mono fun _ _ _ hp => hp.2.1)
  · rintro ⟨n, site⟩ - t t' ht hlaid' h'
    have ha' := ht.grounded ha
    refine .get_bind ?_
    rw [← h'.pag.ptsOf]
    exact lookForEach_follows hs h' ha' hlaid' fun o ho => ha'.lt_of_mem_ptsOf ho

/-- The second half of looking at calls: those that have come up. -/
theorem lookAtNew_spec (hs : s.IsStandard) (h : RoundInvariant s.program a) :
    TrySpec (Steps s.program) (do
      let newSites := (← get).builder.newSites
      modify fun a => { a with builder := { a.builder with newSites := #[] } }
      newSites.toList.forM fun (n, site) => do
        ((← get).pag.ptsOf n).forM (processSite s n site)
      let b := (← get).builder
      return !b.newEdges.isEmpty || !b.newSites.isEmpty : TryAnalysis Bool) a fun _ _ => True := by
  refine .get_bind (.modify_bind (forget_steps a #[] a.arrivals a.stats) ?_)
  have h₁ : RoundInvariant s.program (a.forget #[] a.arrivals a.stats) :=
    h.forget _ _ fun _ hx => hx
  exact .bind
    (changesOnlyBuilder_spec
      ((looked_established hs).lookAtNewSites h₁.valid.grounded h₁.callsWait))
    fun _ _ _ _ => .get_bind (.pure trivial)

theorem resolveCalls_follows {scale : Scale} (hs : s.Comparable cmp fuel) (h : a.Alike cmp a')
    (ho : RunInvariant s.program scale a') :
    Follows cmp s.program (resolveCalls s) (resolveCalls (s.withFuel fuel)) a a' := by
  unfold resolveCalls
  refine .get_bind ?_
  rw [← h.arrivals]
  refine .modify_bind ?_
  have h₁ : Alike cmp { a with arrivals := #[] } { a' with arrivals := #[] } :=
    { h with arrivals := rfl }
  have ho₁ : RoundInvariant s.program (a'.forget a'.builder.newSites #[] a'.stats) :=
    ho.toRoundInvariant.forget _ _ (by simp)
  have harr : ∀ x ∈ a'.arrivals.toList, ∀ o ∈ x.2, o < a'.pag.nodes.size :=
    fun x hx o hmem => lt_of_isObject (ho.arrived (by simpa using hx) hmem)
  have harrivals := (looked_established (s := s.withFuel fuel) hs.standard).lookAtArrivals
    ho₁.valid.grounded ho₁.callsWait harr
  refine .seq (changesOnlyBuilder_spec harrivals)
    (lookAtArrivals_follows hs h₁ ho₁.valid.grounded ho₁.callsWait harr) ?_ ?_
  · rintro _ a₂ a₂' - ⟨hb₂, hlaid₂, -⟩ h₂
    have ho₂ := ho₁.build hb₂ hlaid₂
    refine .get_bind ?_
    rw [← h₂.builder.newSites]
    refine .modify_bind ?_
    have h₃ : Alike cmp { a₂ with builder := { a₂.builder with newSites := #[] } }
        { a₂' with builder := { a₂'.builder with newSites := #[] } } :=
      { h₂ with builder := { h₂.builder with newSites := rfl } }
    have ho₃ : RoundInvariant s.program (a₂'.forget #[] a₂'.arrivals a₂'.stats) :=
      ho₂.forget _ _ fun _ hx => hx
    have hs' : (s.withFuel fuel).IsStandard := hs.standard
    have hlooked := looked_established hs'
    refine .seq (changesOnlyBuilder_spec (hlooked.lookAtNewSites ho₃.valid.grounded ho₃.callsWait))
      (lookAtNewSites_follows hs h₃ ho₃.valid.grounded ho₃.callsWait) ?_ ?_
    · intro _ a₄ a₄' _ _ h₄
      refine .get_bind ?_
      dsimp only
      rw [h₄.builder.newEdges, h₄.builder.newSites]
      exact .of_respects .pure h₄
    · exact fun _ _ _ _ => .get_bind (.pure trivial)
  · rintro _ a₂' - ⟨hb₂, hlaid₂, -⟩
    exact lookAtNew_spec (s := s.withFuel fuel) hs.standard (ho₁.build hb₂ hlaid₂)

/-! ## Rounds -/

variable {scale : Scale}

theorem Alike.countRound (h : a.Alike cmp a') :
    Alike cmp { a with stats := { a.stats with iterations := a.stats.iterations + 1 } }
      { a' with stats := { a'.stats with iterations := a'.stats.iterations + 1 } } :=
  { h with
    iterations := congrArg (· + 1) h.iterations
    stats := fun hs => by rw [h.stats hs] }

theorem Alike.collectStats (h : a.Alike cmp a') :
    (collectStats a).Alike cmp (Analysis.collectStats a') := by
  have hreached : a'.builder.reached = a.builder.reached := by
    unfold Builder.reached
    rw [h.builder.built]
  refine { h with iterations := h.iterations, stats := fun hs => ?_ }
  unfold Analysis.collectStats
  dsimp only
  simp only [h.pag.edgeCount, h.pag.size, h.builder.contexts, hreached,
    h.builder.graph.edges (cmp.sameEdges_of_strict hs), h.builder.unhandled, h.stats hs]

theorem round_follows (hs : s.Comparable cmp fuel) (h : a.Alike cmp a')
    (ho : RunInvariant s.program scale a') :
    Follows cmp s.program (round s scale) (round (s.withFuel fuel) scale) a a' := by
  let stats := { a'.stats with iterations := a'.stats.iterations + 1 }
  have ho₀ : RunInvariant s.program scale (a'.forget a'.builder.newSites a'.arrivals stats) :=
    ⟨ho.toRoundInvariant.forget _ _ fun _ hx => hx, ho.covered⟩
  unfold round
  refine .modify_bind ?_
  refine .bind (seed_spec ho₀) (.modifyGet fun _ _ h₁ => h₁.seed) h.countRound ?_
  rintro seeded a₁ a₁' - ⟨ho₁, -⟩ h₁
  refine .bind (propagate_spec fuel ho₁) (propagate_respects _ _ hs.fuel) h₁ ?_
  rintro - a₂ a₂' - ⟨ho₂, -⟩ h₂
  refine .get_bind ?_
  rw [h₂.iterations]
  split
  · refine .seq (resolveCalls_spec (s := s.withFuel fuel) hs.standard ho₂)
      (resolveCalls_follows hs h₂ ho₂) ?_ ?_
    · exact fun _ _ _ _ _ h₃ => .of_respects .pure h₃
    · exact fun _ _ _ _ => .pure trivial
  · refine .of_respects (.bind (.modify fun _ _ h₃ => ?_) fun _ => .pure) h₂
    exact { h₃ with arrivals := rfl, builder := { h₃.builder with newSites := rfl } }

theorem rounds_follows (hs : s.Comparable cmp fuel) (n n' : Nat) (hn : cmp.strict → n' = n)
    (h : a.Alike cmp a') (ho : RunInvariant s.program scale a') :
    Follows cmp s.program (rounds s scale n) (rounds (s.withFuel fuel) scale n') a a' := by
  induction n generalizing n' a a' with
  | zero =>
    cases n' with
    | zero => exact .of_respects .throw h
    | succ n' => exact Or.inl (Or.inr ⟨fun hstrict => (nomatch hn hstrict), Or.inl rfl⟩)
  | succ n ih =>
    cases n' with
    | zero => exact Or.inl (Or.inr ⟨fun hstrict => (nomatch hn hstrict), Or.inr rfl⟩)
    | succ n' =>
      unfold rounds
      refine .seq (round_spec (s := s.withFuel fuel) hs.standard ho) (round_follows hs h ho) ?_ ?_
      · rintro more a₁ a₁' - ⟨ho₁, -⟩ h₁
        split
        · exact ih n' (fun hstrict => Nat.succ.inj (hn hstrict)) h₁ ho₁
        · exact .of_respects .pure h₁
      · rintro more a₁' - ⟨ho₁, -⟩
        split
        · exact (rounds_spec (s := s.withFuel fuel) hs.standard n' ho₁).any
        · exact .pure trivial

theorem enterEntries_respects (hs : s.Comparable cmp fuel) : TryRespects cmp.strict (Alike cmp)
    (enterEntries s) (enterEntries (s.withFuel fuel)) := by
  refine .get_bind fun b b' h => ?_
  rw [h.builder.graph.entries]
  refine TryRespects.apply (.forM fun f _ => .discard (build_respects ?_)) h
  exact Build.enterEntry_respects hs.respects hs.fuel

/-- Whole runs. -/
theorem solve_follows (hs : s.Comparable cmp fuel) (h : a.Alike cmp a')
    (ho : RunInvariant s.program scale a') :
    Follows cmp s.program (solve s scale) (solve (s.withFuel fuel) scale) a a' := by
  rw [solve_eq, solve_eq]
  refine .bind (enterEntries_spec (s := s.withFuel fuel) hs.standard ho)
    (enterEntries_respects hs) h ?_
  intro _ a₁ a₁' _ ho₁ h₁
  refine .seq (rounds_spec (s := s.withFuel fuel) hs.standard _ ho₁)
    (rounds_follows hs _ _ hs.fuel h₁ ho₁) ?_ ?_
  · exact fun _ a₂ a₂' _ _ h₂ => .of_respects (.modify fun _ _ h₃ => h₃.collectStats) h₂
  · intro _ a₂' _ _
    exact .modify (forget_steps a₂' a₂'.builder.newSites a₂'.arrivals (collectStats a₂').stats)
      trivial

/-- Two analyses that have not begun. -/
theorem alike_ofGraph {g g' : CallGraph} (h : g.Alike cmp g') {c c' : Config}
    (hsens : c'.sensitivity = c.sensitivity) (hk : c'.kLimit = c.kLimit) :
    (ofGraph g c).Alike cmp (ofGraph g' c') where
  builder := {
    pag := Pag.alike_new c.backing c'.backing
    graph := h
    contexts := by simp [ofGraph, Builder.ofGraph, hsens, hk]
    summaries := rfl, built := rfl, pending := rfl, links := rfl, singletons := rfl
    unhandled := rfl, newEdges := rfl, newSites := rfl }
  facts := DiffStore.alike_new c.backing c'.backing
  queue := rfl
  arrivals := rfl
  iterations := rfl
  stats _ := rfl

end Analysis

end PointsTo
