import PointsTo.Proofs.Analysis.Calls
import PointsTo.Proofs.Reach
import PointsTo.Proofs.Repetition.Library

/-!
# Resolving calls is idempotent

To look at a waiting call for an object a second time changes nothing (`processSite_idempotentAt`).
What it finds has been found before: the callee and its context, or the models that take the call.
Calls that were recorded are no news, so they are not counted again.

The test for cycles of calls reads the call graph, which the first time has changed. More calls can
only close more cycles. So the second time the callee is entered once more, or it is not entered any
more, and either way nothing changes.
-/

namespace PointsTo

open Builder (GrowsQuietly)

/-- The builder later on, between two requests: if there waits anything, it has waited before. -/
structure Builder.GrowsIdly (b b' : Builder) : Prop extends GrowsQuietly b b' where
  pending : b'.pending = b.pending ∨ b'.pending = []

instance : IsPreorder Builder Builder.GrowsIdly where
  refl b := ⟨refl_of GrowsQuietly b, Or.inl rfl⟩
  trans _ _ _ h h' := ⟨trans_of GrowsQuietly h.toGrowsQuietly h'.toGrowsQuietly,
    Queueing.draining.chain h.pending h'.pending⟩

open Builder (GrowsIdly)

namespace Analysis

variable {α β : Type} {s : Setting} {p : Program} {a : Analysis} {c : ModelCall}
  {n obj : NodeId}

/-- If the step succeeds, then doing it again does so too, answers the same, and changes nothing. -/
def IdempotentAt (m : TryAnalysis α) (a : Analysis) (Q : α → Analysis → Prop) : Prop :=
  ∀ ⦃x a'⦄, m.run.run a = (.ok x, a') → a.builder.GrowsIdly a'.builder ∧ Q x a' ∧
    ∀ c : Analysis, a'.builder.GrowsIdly c.builder → m.run.run c = (.ok x, c)

namespace IdempotentAt

variable {m : TryAnalysis α} {P Q : α → Analysis → Prop}

theorem pure {x : α} (hq : Q x a) : IdempotentAt (Pure.pure x) a Q := by
  intro _ _ hrun
  cases hrun
  exact ⟨refl_of GrowsIdly _, hq, fun _ _ => rfl⟩

theorem bind {f : α → TryAnalysis β} {Q : β → Analysis → Prop} (hm : IdempotentAt m a P)
    (hf : ∀ x a₁, a.builder.GrowsIdly a₁.builder → P x a₁ → IdempotentAt (f x) a₁ Q) :
    IdempotentAt (m >>= f) a Q := by
  intro y a' hrun
  obtain ⟨x, a₁, hfirst, hrest⟩ := TryGuarantees.of_bind hrun
  obtain ⟨h₁, hp, hagain₁⟩ := hm hfirst
  obtain ⟨h₂, hq, hagain₂⟩ := hf x a₁ h₁ hp hrest
  refine ⟨trans_of GrowsIdly h₁ h₂, hq, fun c hc => ?_⟩
  have hrun₁ := hagain₁ c (trans_of GrowsIdly h₂ hc)
  rw [run_bind_ok (congrArg Prod.fst hrun₁), hrun₁]
  exact hagain₂ c hc

theorem seq {f : α → TryAnalysis β} {Q : β → Analysis → Prop}
    (hm : IdempotentAt m a fun _ _ => True)
    (hf : ∀ x a₁, a.builder.GrowsIdly a₁.builder → IdempotentAt (f x) a₁ Q) :
    IdempotentAt (m >>= f) a Q :=
  hm.bind fun x a₁ h₁ _ => hf x a₁ h₁

/-- What the step reads stays the same. -/
theorem get_bind {f : Analysis → TryAnalysis α}
    (same : ∀ c : Analysis, a.builder.GrowsQuietly c.builder → f c = f a)
    (h : IdempotentAt (f a) a Q) : IdempotentAt (get >>= f) a Q := by
  intro x a' hrun
  obtain ⟨hafter, hq, hagain⟩ := h hrun
  refine ⟨hafter, hq, fun c hc => ?_⟩
  rw [run_get_bind, same c (trans_of GrowsQuietly hafter.toGrowsQuietly hc.toGrowsQuietly)]
  exact hagain c hc

theorem map {f : α → β} {Q : β → Analysis → Prop} (h : IdempotentAt m a fun x a' => Q (f x) a') :
    IdempotentAt (f <$> m) a Q := by
  rw [map_eq_pure_bind]
  exact h.bind fun _ _ _ hx => .pure hx

theorem discard {Q : Unit → Analysis → Prop} (h : IdempotentAt m a fun _ a' => Q () a') :
    IdempotentAt (Functor.discard m) a Q :=
  map h

/-- What is done, after something is noted and counted, unless a test succeeds that is made before
and may only come to succeed. -/
theorem guarded {test : Analysis → Bool} {first : TryAnalysis β} {count : β → TryAnalysis Unit}
    {act : TryAnalysis Unit}
    (lasts : ∀ c : Analysis, a.builder.GrowsQuietly c.builder → test a = true → test c = true)
    (hnote : IdempotentAt (first >>= count) a fun _ _ => True)
    (hact : ∀ a₁ : Analysis, a.builder.GrowsQuietly a₁.builder →
      IdempotentAt act a₁ fun _ _ => True) :
    IdempotentAt (do
      let a ← get
      count (← first)
      if !test a then act) a fun _ _ => True := by
  have hassoc : (do
      let a ← get
      count (← first)
      if !test a then act) = (do
      let a ← get
      first >>= count
      if !test a then act) :=
    bind_congr fun a => (bind_assoc ..).symm
  rw [hassoc]
  generalize first >>= count = note at hnote ⊢
  -- The second time the test may succeed although it has failed before.
  have hskip : IdempotentAt (do note; if !true then act) a fun _ _ => True :=
    hnote.seq fun _ _ _ => .pure trivial
  have hdo : IdempotentAt (do note; if !false then act) a fun _ _ => True :=
    hnote.seq fun _ a₁ h₁ => hact a₁ h₁.toGrowsQuietly
  intro _ a' hrun
  rw [run_get_bind] at hrun
  cases htest : test a with
  | true =>
    rw [htest] at hrun
    obtain ⟨hafter, -, hagain⟩ := hskip hrun
    refine ⟨hafter, trivial, fun c hc => ?_⟩
    rw [run_get_bind, lasts c (trans_of GrowsQuietly hafter.toGrowsQuietly hc.toGrowsQuietly) htest]
    exact hagain c hc
  | false =>
    rw [htest] at hrun
    obtain ⟨hafter, -, hagain⟩ := hdo hrun
    refine ⟨hafter, trivial, fun c hc => ?_⟩
    rw [run_get_bind]
    cases test c with
    | true =>
      obtain ⟨x, a₁, hfirst, hrest⟩ := TryGuarantees.of_bind hrun
      obtain ⟨h₁, -, hagain₁⟩ := hnote hfirst
      obtain ⟨h₂, -⟩ := hact a₁ h₁.toGrowsQuietly hrest
      have hrun₁ := hagain₁ c (trans_of GrowsIdly h₂ hc)
      rw [run_bind_ok (congrArg Prod.fst hrun₁), hrun₁]
      rfl
    | false => exact hagain c hc

end IdempotentAt

open Build

/-! ## Requests to the builder -/

theorem build_idempotentAt {step : TryBuild α}
    (h : TryIdempotentAt .draining step a.builder fun _ _ => True) :
    IdempotentAt (build step) a fun _ _ => True := by
  intro x a' hrun
  generalize hstep : step.run.run a.builder = r at hrun
  obtain ⟨result, b'⟩ := r
  have hbuild : ∀ c : Analysis, (build step).run.run c =
      ((step.run.run c.builder).1, { c with builder := (step.run.run c.builder).2 }) :=
    fun _ => rfl
  rw [hbuild, hstep] at hrun
  cases hrun
  obtain ⟨hlater, htakes, -, hagain⟩ := h hstep
  refine ⟨⟨hlater, htakes⟩, trivial, fun c hc => ?_⟩
  rw [hbuild, hagain c.builder c.builder.pending hc.toGrowsQuietly ⟨rfl, hc.pending⟩]

/-- The second time the call is no news, so it is not counted. -/
theorem recordCall_idempotentAt {src dst : FuncId} {stmt : StmtId} {kind : CallKind} :
    IdempotentAt (do countResolved (← build (addCall src dst stmt kind))) a fun _ _ => True := by
  have hcall : PointsTo.IdempotentAt (discard (addCall src dst stmt kind)) a.builder _ :=
    addCall_idempotentAt
  intro _ a' hrun
  obtain ⟨isNew, a₁, hadd, hcount⟩ := TryGuarantees.of_bind hrun
  have hbuilder : a'.builder = ((addCall src dst stmt kind).run a.builder).2 := by
    cases hadd
    have hsame := (countResolved_spec (R := AnyChange) (fun _ _ => trivial)).of_run hcount
    exact hsame.2
  refine ⟨⟨hbuilder ▸ hcall.growsQuietly, Or.inl (hbuilder ▸ hcall.pending)⟩, trivial,
    fun c hc => ?_⟩
  rw [hbuilder] at hc
  have hold : c.builder.graph.addCall src dst stmt kind = (false, c.builder.graph) :=
    (hc.factsAndCalls.hasCallOnce
      (a.builder.graph.hasCallOnce_addCall src dst stmt kind)).addCall_eq
  have hadd' : (build (addCall src dst stmt kind)).run.run c = (.ok false, c) := by
    show (Except.ok (c.builder.graph.addCall src dst stmt kind).1, { c with builder :=
      { c.builder with graph := (c.builder.graph.addCall src dst stmt kind).2 } }) = _
    rw [hold]
  rw [run_bind_ok (congrArg Prod.fst hadd'), hadd']
  rfl

/-! ## Models -/

theorem leaveToModels_idempotentAt (hs : s.IsStandard) {role : SiteRole}
    (hc : c.Placed a.builder obj) :
    IdempotentAt (leaveToModels s c role obj) a fun _ _ => True := by
  unfold leaveToModels
  refine .seq (build_idempotentAt (runModels_idempotentAt hs hc)) fun handled a₁ _ => ?_
  dsimp only
  split
  · refine .seq (build_idempotentAt (.lift addUnhandled_idempotentAt)) fun _ _ _ => .pure trivial
  · exact .pure trivial

/-! ## Callees -/

theorem resolvedBinding_idempotentAt {b : Builder} (hc : c.Placed b obj) (hn : n < b.pag.nodes.size)
    {callee : FuncId} {fn : Option FunctionObject} (hfn : ∀ f, fn = some f → f.Placed b) :
    PointsTo.IdempotentAt (resolvedBinding p c n obj callee fn) b fun binding b' =>
      binding.Placed b' := by
  cases fn with
  | some fn =>
    have hfn := hfn fn rfl
    refine .get_bind (fun d hd => ?_) ?_
    · obtain ⟨x, hx⟩ := Pag.exists_node? hc.object.node
      obtain ⟨y, hy, hgrow⟩ := hd.pag.node hx
      simp only [hx, hy, Option.map_some, hgrow.cid]
    · refine .bind (argNodes_idempotentAt _ _) fun args b₁ h₁ hargs => ?_
      refine .bind resultNode?_idempotentAt fun result b₂ h₂ hresult => .pure ?_
      have h := trans_of GrowsQuietly h₁ h₂
      refine (hc.mono h).binding (hfn.mono h).this ?_ isNode?_none hresult
      exact (hfn.mono h).append fun arg harg => h₂.pag.lt (hargs arg harg)
  | none =>
    have finish : ∀ (receiver : NodeId) b₁, b.GrowsQuietly b₁ → receiver < b₁.pag.nodes.size →
        PointsTo.IdempotentAt (do
          let args ← argNodes p c.callerCid c.invoke.args 0
          let result ← resultNode? p c
          return ({ c.binding callee obj with thisSrc := some receiver, args, result } :
            CallBinding)) b₁ fun binding b' => binding.Placed b' := by
      intro receiver b₁ h₁ hreceiver
      refine .bind (argNodes_idempotentAt _ _) fun args b₂ h₂ hargs => ?_
      refine .bind resultNode?_idempotentAt fun result b₃ h₃ hresult => .pure ?_
      have h := trans_of GrowsQuietly h₁ (trans_of GrowsQuietly h₂ h₃)
      refine (hc.mono h).binding (isNode?_some (h₃.pag.lt (h₂.pag.lt hreceiver))) ?_
        isNode?_none hresult
      exact fun arg harg => h₃.pag.lt (hargs arg harg)
    unfold resolvedBinding
    cases c.invoke.base with
    | some base =>
      exact .bind valueNode_idempotentAt fun receiver b₁ h₁ hlt =>
        finish receiver b₁ h₁ hlt
    | none => exact finish n b (refl_of GrowsQuietly b) hn

/-- If the callee was not entered the first time, the call closes a cycle the second time as
well. -/
theorem callResolved_idempotentAt (hs : s.IsStandard) (hc : c.Placed a.builder obj)
    (hn : n < a.pag.nodes.size) {m : MethodSig} {fn : Option FunctionObject}
    (hfn : ∀ f, fn = some f → f.Placed a.builder) :
    IdempotentAt (callResolved s c n obj m fn) a fun _ _ => True := by
  unfold callResolved
  refine .seq (build_idempotentAt ?_) fun callee a₁ h₁ => ?_
  · split
    · exact .pure trivial
    · exact .lift funcOf_idempotentAt
  refine .guarded (fun d hd htest => ?_) recordCall_idempotentAt fun a₂ h₂ => ?_
  · rw [Bool.or_eq_true] at htest ⊢
    exact htest.imp_right (CallGraph.reachable_mono hd.graph.size hd.graph.links)
  · have h := trans_of GrowsQuietly h₁.toGrowsQuietly h₂
    refine build_idempotentAt (.bind (.lift (resolvedBinding_idempotentAt (hc.mono h) (h.pag.lt hn)
      fun f hf => (hfn f hf).mono h)) fun binding b₃ _ hbinding => ?_)
    exact .discard
      (connect_idempotentAt (fun _ _ _ => enterNow_idempotentAt hs.keepsLinks) hbinding).any

theorem callBack_idempotentAt (hs : s.IsStandard) (hc : c.Placed a.builder obj) :
    IdempotentAt (callBack s c obj) a fun _ _ => True := by
  unfold callBack
  refine .get_bind (fun d hd => ?_) ?_
  · have hsame : d.pag.function? obj = a.pag.function? obj :=
      Pag.function?_congr hd.pag hc.object.node
    rw [hsame]
  · split
    · rename_i fn hfn
      have hplaced := hc.object.function fn hfn
      refine .seq (build_idempotentAt (.lift functionCallee_idempotentAt)) fun callee a₁ h₁ => ?_
      rw [← bind_assoc]
      refine .seq recordCall_idempotentAt fun _ a₂ h₂ => build_idempotentAt (.discard ?_)
      have h := trans_of GrowsQuietly h₁.toGrowsQuietly h₂.toGrowsQuietly
      have hbinding : (c.bindingOf callee obj fn).Placed a₂.builder :=
        (hc.mono h).binding (hplaced.mono h).this (hplaced.mono h).args isNode?_none isNode?_none
      exact (connect_idempotentAt (fun _ _ _ => enterNow_idempotentAt hs.keepsLinks) hbinding).any
    · exact .pure trivial

/-! ## One call and one object -/

/-- A callee that is found through a function object. -/
theorem placed_of_resolve? {i : Invoke} {m : MethodSig} {fn : Option FunctionObject}
    (h : s.program.resolve? a.pag i obj = some (m, fn)) (ho : a.builder.HasObject obj) :
    ∀ f, fn = some f → f.Placed a.builder := by
  rintro f rfl
  obtain ⟨-, hkind⟩ := resolve?_function h
  obtain ⟨x, hx, hkind⟩ := Option.map_eq_some_iff.1 hkind
  refine ho.function f (Option.bind_eq_some_iff.2 ⟨x, hx, ?_⟩)
  rw [hkind]
  rfl

theorem receiverCall_idempotentAt (hs : s.IsStandard) (hc : c.Placed a.builder obj)
    (hn : n < a.pag.nodes.size) {role : SiteRole} :
    IdempotentAt (receiverCall s c n role obj) a fun _ _ => True := by
  refine .get_bind (fun d hd => ?_) ?_
  · have hsame : s.program.resolve? d.pag c.invoke obj = s.program.resolve? a.pag c.invoke obj :=
      resolve?_congr hd.pag hc.object.node c.invoke
    rw [hsame]
  · split
    · rename_i m fn hres
      split
      · exact callResolved_idempotentAt hs hc hn (placed_of_resolve? hres hc.object)
      · have hplaced : ModelCall.Placed a.builder { c with callee := m } obj :=
          ⟨hc.caller, hc.object, hc.shown⟩
        exact .discard (leaveToModels_idempotentAt hs hplaced)
    · refine .seq (leaveToModels_idempotentAt hs hc) fun handled a₁ _ => ?_
      split
      · exact build_idempotentAt (.forM fun _ _ _ _ => .lift watchArg_idempotentAt)
      · exact .pure trivial

/-- Sites are recorded before the analysis. -/
theorem siteAt_of_grows {g g' : CallGraph} (h : g.Grows g') (stmt : StmtId) :
    siteAt g' stmt = siteAt g stmt := by
  unfold siteAt CallGraph.dynSiteAt? CallGraph.sitesAt
  rw [h.sites, h.dynSites]

theorem processSite_idempotentAt (hs : s.IsStandard) {site : SiteRef}
    (hcaller : ∀ x, a.pag.node? n = some x → a.builder.HasContext x.cid)
    (hobj : a.builder.HasObject obj) (hshown : ∀ m, ∀ o ∈ a.pag.ptsOf m, a.builder.HasObject o) :
    IdempotentAt (processSite s n site obj) a fun _ _ => True := by
  unfold processSite
  dsimp only
  split
  · rename_i invoke stmt _ _
    cases hx : a.pag.node? n with
    | none =>
      intro _ a' hrun
      rw [run_get_bind, hx] at hrun
      cases hrun
    | some x =>
      refine .get_bind (fun d hd => ?_) ?_
      · obtain ⟨y, hy, hgrow⟩ := hd.pag.node hx
        have hy' : d.pag.node? n = some y := hy
        rw [hx, hy']
        simp only [hgrow.cid]
      · rw [hx]
        refine .seq (build_idempotentAt (.lift funcOf_idempotentAt)) fun caller a₁ h₁ => ?_
        refine .get_bind (fun d hd => by rw [siteAt_of_grows hd.graph]) ?_
        let c : ModelCall := {
          stmt := site.stmt, caller, callerCid := x.cid
          site := siteAt a₁.builder.graph site.stmt
          callee := invoke.method, invoke, result := stmt.defValue? }
        have hplaced : c.Placed a.builder obj := ⟨hcaller x hx, hobj, hshown⟩
        have hc := hplaced.mono h₁.toGrowsQuietly
        split
        · refine .seq (build_idempotentAt (runModels_idempotentAt hs hc)) fun taken a₂ h₂ => ?_
          split
          · exact callBack_idempotentAt hs (hc.mono h₂.toGrowsQuietly)
          · exact .pure trivial
        · exact receiverCall_idempotentAt hs hc (h₁.pag.lt (Pag.node?_lt hx))
  · exact .pure trivial

end Analysis

end PointsTo
