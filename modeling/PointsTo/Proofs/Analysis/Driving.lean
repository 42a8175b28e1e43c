import PointsTo.Proofs.Actions.Layout
import PointsTo.Proofs.Analysis.Looking
import PointsTo.Proofs.Analysis.Rounds
import PointsTo.Proofs.Links.Layout

/-!
# What an analysis does to its builder

An analysis has its builder make nodes and edges, connect calls and ask models, and that in any
order. So what each of these guarantees of a builder (`Setting.AnalysisGuarantees`), whole rounds
guarantee too. Of steps that may fail it is asked for the outcomes that count.

There are several uses of this. What the builder of an analysis does are actions, however the
analysis ends, and its links stay complete if the analysis succeeds. What else is kept by a run that
completes is read off in the same way (`Completes.onBuilder`). At the end stands what a call is when
it is looked at (`Analysis.IsCallAt`).
-/

namespace PointsTo

open Builder (Actions KeepsRequests KeepsComplete)

variable {α : Type} {s : Setting} {o : Outcomes} {R : Builder → Builder → Prop}

/-- Whatever an analysis asks of its builder keeps to `R`. -/
structure Setting.AnalysisGuarantees (s : Setting) (o : Outcomes) (R : Builder → Builder → Prop) :
    Prop where
  draw : ∀ b pag newEdges newSites, b.pag.Extends pag → pag.nodes.size = b.pag.nodes.size →
    R b { b with pag, newEdges, newSites }
  field : ∀ {obj key cloneOf}, PointsTo.Guarantees R (Build.fieldNode obj key cloneOf)
  func : ∀ {m missing}, PointsTo.Guarantees R (Build.funcOf s.program m missing)
  call : ∀ {src dst stmt kind}, PointsTo.Guarantees R (Build.addCall src dst stmt kind)
  unhandled : ∀ {m}, PointsTo.Guarantees R (Build.addUnhandled m)
  watch : ∀ {c index}, PointsTo.Guarantees R (Build.watchArg s.program c index)
  binding : ∀ {c : ModelCall} {at_ obj callee fn}, c.OfProgram s.program →
    PointsTo.Guarantees R (Analysis.resolvedBinding s.program c at_ obj callee fn)
  connect : ∀ {c}, GuaranteesOn o R (Build.connect s.program (Build.enterNow s) c)
  models : ∀ {c : ModelCall} {role obj}, c.OfProgram s.program →
    GuaranteesOn o R (Build.runModels s c role obj)

theorem Setting.AnalysisGuarantees.look (hs : s.AnalysisGuarantees o R) : s.LookGuarantees o R :=
  { hs with forget := fun b => hs.draw b b.pag b.newEdges #[] .rfl rfl }

namespace Analysis

/-- The builders are related by `R`. -/
def OnBuilder (R : Builder → Builder → Prop) (a a' : Analysis) : Prop :=
  R a.builder a'.builder

theorem build_onBuilder {a : Analysis} {step : TryBuild α} {Q : α → Builder → Prop}
    (h : TrySpec R step a.builder Q) :
    TrySpec (OnBuilder R) (build step) a fun x a' => Q x a'.builder :=
  ⟨h.1, h.2⟩

theorem setPag_onBuilder (hs : s.AnalysisGuarantees o R) (a : Analysis)
    {pag : Pag} (h : a.pag.Extends pag)
    (size : pag.nodes.size = a.pag.nodes.size) : OnBuilder R a (a.setPag pag) :=
  hs.draw a.builder pag a.builder.newEdges a.builder.newSites h size

variable [IsPreorder Builder R]

instance : IsPreorder Analysis (OnBuilder R) where
  refl a := refl_of R a.builder
  trans _ _ _ h h' := trans_of R h h'

theorem onBuilder_lifts : Lifts R (OnBuilder R) where
  builder h := h
  count a := refl_of R a.builder
  arrivals a := refl_of R a.builder

theorem resolveCalls_onBuilder (hs : s.AnalysisGuarantees o R) :
    GuaranteesOn o (OnBuilder R) (resolveCalls s) :=
  resolveCalls_lifted onBuilder_lifts hs.look

/-! ## Passing facts on -/

theorem receive_onBuilder (a : Analysis) (n : NodeId) (r : Bool × DiffStore) :
    OnBuilder R a (a.receive n r) := by
  unfold receive OnBuilder
  dsimp only
  split <;> exact refl_of R a.builder

section Facts

variable (hs : s.AnalysisGuarantees o R)
include hs

theorem seed_onBuilder (a : Analysis) : OnBuilder R a (seed a).2 := by
  have hreseed : ∀ (a : Analysis) n, OnBuilder R a (a.reseed n) := by
    intro a n
    unfold reseed OnBuilder
    dsimp only
    split <;> exact refl_of R a.builder
  have htake : OnBuilder R a a.takeEdges :=
    hs.draw a.builder a.builder.pag #[] a.builder.newSites .rfl rfl
  rw [seed_eq]
  refine trans_of (OnBuilder R) htake (foldl_any fun e _ a₁ _ => ?_)
  unfold seedEdge
  split
  · exact receive_onBuilder ..
  · cases a₁.refBase? e.src with
    | none => exact refl_of (OnBuilder R) a₁
    | some n => exact hreseed a₁ n
  · cases a₁.refBase? e.dst with
    | none => exact refl_of (OnBuilder R) a₁
    | some n => exact hreseed a₁ n
  all_goals exact hreseed a₁ e.src

theorem addCopy_onBuilder (a : Analysis) (src dst : NodeId) :
    OnBuilder R a (a.addCopy src dst) := by
  unfold addCopy
  dsimp only
  split
  · have hset := setPag_onBuilder hs a (a.pag.addEdge_extends .copy src dst)
      (by rw [Pag.nodes_addEdge])
    refine trans_of (OnBuilder R) hset ?_
    exact receive_onBuilder (a.setPag (a.pag.addEdge .copy src dst).2).countPropagation dst _
  · exact refl_of (OnBuilder R) a

theorem joinField_onBuilder (obj : NodeId) (a : Analysis) (ref : NodeId) :
    OnBuilder R a (joinField obj a ref) := by
  unfold joinField
  split
  · exact refl_of (OnBuilder R) a
  · dsimp only
    have hfield : ∀ key, OnBuilder R a
        { a with builder := ((Build.fieldNode obj key (some ref)).run a.builder).2 } :=
      fun key => hs.field a.builder
    refine trans_of (OnBuilder R) (hfield _) (trans_of (OnBuilder R)
      (foldl_any fun dst _ a₁ _ => addCopy_onBuilder hs a₁ _ dst)
      (foldl_any fun src _ a₁ _ => addCopy_onBuilder hs a₁ src _))

theorem visit_onBuilder (a : Analysis) (n : NodeId) : OnBuilder R a (visit s.program a n) := by
  have hpass : ∀ (a : Analysis) facts dst, OnBuilder R a (a.pass facts dst) := fun a facts dst =>
    receive_onBuilder a.countPropagation dst _
  have hfields : ∀ a : Analysis, OnBuilder R a (a.joinFields n) := by
    intro a
    unfold joinFields
    dsimp only
    split
    · exact refl_of (OnBuilder R) a
    · refine foldl_any fun obj _ a₁ _ => ?_
      split
      · exact foldl_any fun ref _ a₂ _ => joinField_onBuilder hs obj a₂ ref
      · exact refl_of (OnBuilder R) a₁
  have hsettle : ∀ a : Analysis, OnBuilder R a (a.settle n) := by
    intro a
    have hset := setPag_onBuilder hs a (a.pag.addPts_extends n (a.facts.freshOf n))
      (a.pag.size_addPts ..)
    unfold settle
    dsimp only
    split <;> exact hset
  have hthis : OnBuilder R a (passThis s.program a n) := foldl_any fun dst _ a₁ _ => hpass a₁ _ dst
  have hcopies : ∀ a : Analysis, OnBuilder R a (a.passCopies n) := fun a =>
    foldl_any fun dst _ a₁ _ => hpass a₁ _ dst
  exact trans_of (OnBuilder R) (trans_of (OnBuilder R) (trans_of (OnBuilder R) hthis (hfields _))
    (hcopies _)) (hsettle _)

theorem propagate_onBuilder (n : Nat) : GuaranteesOn o (OnBuilder R) (propagate s.program n) := by
  induction n with
  | zero =>
    refine .bind .get fun a => ?_
    split
    · exact .throw
    · exact .pure
  | succ n ih =>
    refine .bind .get fun a => ?_
    split
    · exact .pure
    · refine .bind (.modify fun a => refl_of R a.builder) fun _ => .bind .get fun a => ?_
      split
      · refine .bind .get fun a => ?_
        split
        · exact .throw
        · exact .bind (.modify fun a => visit_onBuilder hs a _) fun _ => ih
      · exact ih

/-! ## Rounds -/

theorem round_onBuilder {scale : Scale} : GuaranteesOn o (OnBuilder R) (round s scale) := by
  unfold round
  refine .bind (.modify fun a => refl_of R a.builder) fun _ => ?_
  refine .bind (fun a _ => seed_onBuilder hs a) fun seeded => ?_
  refine .bind (propagate_onBuilder hs s.fuel) fun _ => .bind .get fun a => ?_
  split
  · exact .bind (resolveCalls_onBuilder hs) fun _ => .pure
  · refine .bind (.modify fun a => ?_) fun _ => .pure
    exact hs.draw a.builder a.builder.pag a.builder.newEdges #[] .rfl rfl

theorem rounds_onBuilder {scale : Scale} (n : Nat) :
    GuaranteesOn o (OnBuilder R) (rounds s scale n) := by
  induction n with
  | zero => exact .throw
  | succ n ih =>
    refine .bind (round_onBuilder hs) fun more => ?_
    split
    · exact ih
    · exact .pure

/-- What a run does after laying out the entries. -/
theorem complete_onBuilder {scale : Scale} : GuaranteesOn o (OnBuilder R) (complete s scale) :=
  .bind (rounds_onBuilder hs s.fuel) fun _ => .modify fun a => refl_of R a.builder

end Facts

/-- A whole run, if each entry is laid out along `R`. -/
theorem solve_onBuilder (hs : s.AnalysisGuarantees o R)
    (hentry : ∀ f, GuaranteesOn o R (Build.enterEntry s f))
    {scale : Scale} : GuaranteesOn o (OnBuilder R) (solve s scale) := by
  rw [solve_eq]
  refine .bind (.bind .get fun a => .forM fun f _ => .discard ?_) fun _ => complete_onBuilder hs
  exact onBuilder_lifts.build (hentry f)

/-- What a run that completes does to its builder. -/
theorem Completes.onBuilder {p : Program} {seed : Seed} {entries : List MethodSig} {c : Config}
    {a : Analysis} (h : Completes p seed entries c a)
    (hdrives : ∀ s : Setting, s.program = p → s.IsStandard → s.AnalysisGuarantees o R ∧
      ∀ f, GuaranteesOn o R (Build.enterEntry s f)) :
    R (Builder.ofGraph (seed.graph p entries) c.backing c.sensitivity c.kLimit) a.builder := by
  obtain ⟨fuel, hrun⟩ := h.solved
  let s : Setting := { program := p, models := LibraryModel.standard, fuel }
  obtain ⟨hs, hentry⟩ := hdrives s rfl rfl
  have hbuilder : GuaranteesOn o (OnBuilder R) (solve s c.scale) := solve_onBuilder hs hentry
  have hsolve := hbuilder (ofGraph (seed.graph p entries) c)
  rw [show (solve s c.scale).run.run (ofGraph (seed.graph p entries) c) = _ from hrun] at hsolve
  -- Success counts in any case.
  refine hsolve ?_
  cases o with
  | all => trivial
  | successes => rfl

/-! ## By actions -/

theorem analysisGuarantees_actions (hs : s.ByActions) :
    s.AnalysisGuarantees .all (Actions s.program) where
  draw b pag newEdges newSites h size :=
    .of_action (.draw pag b.links newEdges newSites h size)
  field := Build.fieldNode_actions
  func := Build.funcOf_actions
  call := Build.addCall_actions
  unhandled := Build.addUnhandled_actions
  watch := Build.watchArg_actions
  binding hc := resolvedBinding_guarantees (fun _ _ => Build.argNodes_actions _ _)
    (Build.resultNode?_actions hc) fun _ hbase =>
      Build.valueNode_actions (Program.not_onlyAssigned_dealias (hc.not_onlyAssigned_base hbase))
  connect := .of_spec fun _ => Build.connect_actions (Build.enterNow_byActions hs)
  models hc := Build.runModels_actions hs hc

/-- Only entries are entered, as the entries stay the same. -/
theorem enterEntries_actions (hs : s.ByActions) :
    GuaranteesOn .all (OnBuilder (Actions s.program)) (enterEntries s) := by
  intro a _
  have hloop : TrySpec (OnBuilder (Actions s.program)) (a.builder.graph.entries.forM fun f =>
      discard (build (Build.enterEntry s f))) a fun _ _ => True := by
    refine .forM_any fun f hf a₁ h₁ => .discard ?_
    have hentry : f ∈ a₁.builder.graph.entries := by
      rw [Builder.Extends.entries (Builder.Actions.extends h₁)]
      exact hf
    exact ⟨(Build.enterEntry_actions hs hentry).1, fun _ _ => trivial⟩
  exact hloop.1

/-- However a run ends, its builder has gone by actions. -/
theorem solve_actions (hs : s.ByActions) {scale : Scale} :
    GuaranteesOn .all (OnBuilder (Actions s.program)) (solve s scale) := by
  rw [solve_eq]
  exact .bind (enterEntries_actions hs) fun _ => complete_onBuilder (analysisGuarantees_actions hs)

/-! ## With complete links -/

/-- What an analysis asks for changes the builder by `R` if requests do, the models do, and so do
calls whose callees are laid out at once. -/
theorem analysisGuarantees_of_keepsRequests (enter : (Build.enterNow s).Guarantees s.program o R)
    (models : ∀ {c role obj}, GuaranteesOn o R (Build.runModels s c role obj))
    (draw : ∀ b pag newEdges newSites, b.pag.Extends pag → pag.nodes.size = b.pag.nodes.size →
      R b { b with pag, newEdges, newSites }) : s.AnalysisGuarantees o R where
  draw := draw
  field := Build.fieldNode_keepsRequests.weaken enter.keepsRequests
  func := Build.funcOf_keepsRequests.weaken enter.keepsRequests
  call := Build.addCall_keepsRequests.weaken enter.keepsRequests
  unhandled := Build.addUnhandled_keepsRequests.weaken enter.keepsRequests
  watch := Build.watchArg_keepsRequests.weaken enter.keepsRequests
  binding := fun _ =>
    Guarantees.weaken
      (resolvedBinding_guarantees (fun _ _ => Build.argNodes_keepsRequests _ _)
        Build.resultNode?_keepsRequests fun _ _ => Build.valueNode_keepsRequests)
      enter.keepsRequests
  connect := Build.connect_guarantees enter
  models := fun _ => models

/-- It does so if requests and the queue do, and new facts and edges do. -/
theorem analysisGuarantees_of_queue (hs : s.KeepsLinks) (h : s.QueueGuarantees o R)
    (draw : ∀ b pag newEdges newSites, b.pag.Extends pag → pag.nodes.size = b.pag.nodes.size →
      R b { b with pag, newEdges, newSites }) : s.AnalysisGuarantees o R :=
  analysisGuarantees_of_keepsRequests (Build.enterNow_enterGuarantees h)
    (Build.runModels_guarantees hs h) draw

theorem analysisGuarantees_keepsComplete (hs : s.KeepsLinks) :
    s.AnalysisGuarantees .successes (KeepsComplete s.program) :=
  analysisGuarantees_of_queue hs hs.queueKeepsComplete fun _ _ newEdges newSites h size hb =>
    hb.withPag h size newEdges newSites

/-! ## Looking at a call -/

variable {a a' : Analysis} {c : ModelCall} {n obj : NodeId}

/-- What the models have done stays done while what they called is laid out. -/
theorem runModels_spec (hs : s.IsStandard) {b : Builder} {role : SiteRole}
    {P : Bool → Builder → Prop}
    (stable : ∀ {taken b₁ b₂}, Builder.Extends b₁ b₂ → P taken b₁ → P taken b₂)
    (hrun : TrySpec (Actions s.program)
      (LibraryModel.runOnObject s.program Build.enqueue c role obj LibraryModel.standard) b P) :
    TrySpec (Actions s.program) (Build.runModels s c role obj) b fun taken b' =>
      P taken b' ∧ b'.pending = [] := by
  unfold Build.runModels
  rw [show s.models = LibraryModel.standard from hs]
  refine .bind hrun fun taken b₁ _ htaken => ?_
  refine .bind (Build.drain_actions hs.byActions s.fuel) fun _ b₂ h₂ hempty => .pure ⟨?_, hempty⟩
  exact stable (Actions.extends h₂) htaken

/-- The call is that of the statement, which stands in the method `m` that was laid out in the
context `cid`. -/
structure IsCallAt (p : Program) (b : Builder) (stmt : StmtId) (i : Invoke) (m : MethodSig)
    (cid : ContextId) (c : ModelCall) : Prop where
  ofProgram : c.OfProgram p
  ofStmt : c.stmt = stmt
  invoke : c.invoke = i
  callee : c.callee = i.method
  callerCid : c.callerCid = cid
  caller : b.graph.methodOf? c.caller = some m
  site : c.site = siteAt b.graph stmt

/-- Before a call is looked at, its caller gets a node. The call is made in the context of the node
that it waits at. -/
theorem processSite_looks {site : SiteRef} {i : Invoke} {st : Stmt}
    (hi : s.program.invokeOf? site.stmt = some i) (hst : s.program.stmt? site.stmt = some st)
    (hrun : (processSite s n site obj).run.run a = (.ok (), a')) :
    ∃ c cid a₁, (a.pag.node? n).map Node.cid = some cid ∧
      IsCallAt s.program a₁.builder site.stmt i st.method cid c ∧ a.builder.Extends a₁.builder ∧
      (lookAs s c n obj site.role).run.run a₁ = (.ok (), a') := by
  unfold processSite at hrun
  dsimp only at hrun
  rw [hi, hst] at hrun
  dsimp only at hrun
  rw [run_get_bind] at hrun
  cases hnode : a.pag.node? n with
  | none =>
    -- At a node that is not there, the call fails.
    rw [hnode] at hrun
    cases hrun
  | some node =>
    rw [hnode] at hrun
    obtain ⟨caller, a₁, hfunc, hrun⟩ := TryGuarantees.of_bind hrun
    obtain ⟨h₁, hcaller⟩ := (build_onBuilder (.lift Build.funcOf_names)).of_run hfunc
    rw [run_get_bind] at hrun
    let c : ModelCall := {
      stmt := site.stmt, caller, callerCid := node.cid
      site := siteAt a₁.builder.graph site.stmt
      callee := i.method, invoke := i, result := st.defValue? }
    have hresult : (s.program.stmt? site.stmt).bind Stmt.defValue? = st.defValue? := by
      rw [hst]
      rfl
    have hcall : IsCallAt s.program a₁.builder site.stmt i st.method node.cid c :=
      ⟨⟨hi, hresult⟩, rfl, rfl, rfl, rfl, hcaller, rfl⟩
    refine ⟨c, node.cid, a₁, rfl, hcall, Actions.extends h₁, ?_⟩
    generalize site.role = role at hrun
    cases role with
    | arg index => exact hrun
    | receiver => exact hrun
    | unknown => exact hrun

end Analysis

end PointsTo
