import PointsTo.Proofs.Library.Models
import PointsTo.Proofs.Lockstep.Effects

/-!
# Laying out methods

Besides steps, laying out takes up methods (`Builder.LayoutSteps`). A method that was laid out in a
context has all its calls that depend on a receiver wait there (`Builder.CallsWait`). As a method
counts as laid out from the moment it is taken up, this holds of all methods between the requests
only, and only if none of them failed (`Builder.AllCallsWait`).
-/

namespace PointsTo

namespace Builder

/-- A step, or taking up a method. -/
inductive LayoutStep (p : Program) (b : Builder) : Builder → Prop where
  | step {b' : Builder} (h : Step p b b') : LayoutStep p b b'
  | takeUp (cid : ContextId) (f : FuncId) : LayoutStep p b { b with built := (cid, f) :: b.built }

/-- Any number of steps and methods taken up. -/
def LayoutSteps (p : Program) : Builder → Builder → Prop :=
  Relation.ReflTransGen (LayoutStep p)

instance (p : Program) : IsPreorder Builder (LayoutSteps p) :=
  inferInstanceAs (IsPreorder Builder (Relation.ReflTransGen (LayoutStep p)))

variable {p : Program} {b b' : Builder}

theorem LayoutStep.grows (h : LayoutStep p b b') : b.Grows b' := by
  cases h with
  | step h => exact h.grows
  | takeUp cid f => exact .of_same rfl rfl rfl rfl .rfl fun hs => hs

theorem LayoutStep.sound (h : LayoutStep p b b') (hb : b.Sound p) : b'.Sound p := by
  have hg := h.grows
  cases h with
  | step h => exact h.sound hb
  | takeUp cid f => exact hb.of_same hg rfl rfl rfl hb.graph Or.inl Or.inl

namespace LayoutSteps

theorem grows (h : LayoutSteps p b b') : b.Grows b' := by
  induction h with
  | refl => exact .rfl
  | tail _ hmove ih => exact ih.trans hmove.grows

theorem sound (h : LayoutSteps p b b') (hb : b.Sound p) : b'.Sound p := by
  induction h with
  | refl => exact hb
  | tail _ hmove ih => exact hmove.sound ih

theorem built (h : LayoutSteps p b b') : b.built ⊆ b'.built := by
  induction h with
  | refl => exact List.Subset.refl _
  | tail _ hmove ih =>
    cases hmove with
    | step hstep =>
      rw [Steps.built (Relation.ReflTransGen.single hstep)]
      exact ih
    | takeUp cid f => exact fun _ hx => List.mem_cons_of_mem _ (ih hx)

end LayoutSteps

theorem Steps.layoutSteps (h : Steps p b b') : LayoutSteps p b b' := by
  induction h with
  | refl => exact refl_of (LayoutSteps p) b
  | tail _ hstep ih => exact ih.tail (.step hstep)

/-! ## Methods laid out -/

/-- If the statement makes a call with a base, it waits at the node of the base in context `cid`. -/
def CallWaits (p : Program) (b : Builder) (cid : ContextId) (stmt : StmtId) : Prop :=
  ∀ i base, p.invokeOf? stmt = some i → i.base = some base →
    ∃ n role, Build.nodeIn? b.pag cid (Build.entityOf p base) = some n ∧
      (∀ index, role ≠ .arg index) ∧ ⟨stmt, role⟩ ∈ b.pag.sitesOf n

/-- The calls of the method that depend on a receiver wait for it. -/
def CallsWait (p : Program) (b : Builder) (cid : ContextId) (f : FuncId) : Prop :=
  ∃ s, b.summary? f = some s ∧
    ∀ site, site ∈ s.dynamicCalls ∨ site ∈ s.unknownCalls → b.CallWaits p cid site.stmt

/-- All methods that count as laid out are. -/
def AllCallsWait (p : Program) (b : Builder) : Prop :=
  ∀ cid f, (cid, f) ∈ b.built → b.CallsWait p cid f

theorem CallWaits.mono {cid : ContextId} {stmt : StmtId} (hg : b.pag.Extends b'.pag)
    (h : b.CallWaits p cid stmt) : b'.CallWaits p cid stmt := by
  intro i base hi hbase
  obtain ⟨n, role, hn, hrole, hsite⟩ := h i base hi hbase
  exact ⟨n, role, Build.nodeIn?_mono (Build.entityOf_isPlain p base) hg hn, hrole, hg.site hsite⟩

theorem CallsWait.mono {cid : ContextId} {f : FuncId} (hg : b.pag.Extends b'.pag)
    (summary : ∀ {f s}, b.summary? f = some s → b'.summary? f = some s) (h : b.CallsWait p cid f) :
    b'.CallsWait p cid f := by
  obtain ⟨s, hs, hsites⟩ := h
  exact ⟨s, summary hs, fun site hsite => (hsites site hsite).mono hg⟩

theorem AllCallsWait.steps (h : b.AllCallsWait p) (hs : Steps p b b') : b'.AllCallsWait p := by
  intro cid f hf
  rw [hs.built] at hf
  exact (h cid f hf).mono hs.grows.pag hs.grows.summary

/-- Only the graph of the program has changed. -/
theorem AllCallsWait.of_extends {g : Pag} (h : b.AllCallsWait p) (hg : b.pag.Extends g) :
    ({ b with pag := g } : Builder).AllCallsWait p := fun cid f hf =>
  (h cid f hf).mono hg fun hs => hs

end Builder

/-- All that the models of the setting do are steps. -/
def Setting.Sound (s : Setting) : Prop :=
  ∀ m ∈ s.models, m.Sound s.program

/-- The models are the standard ones. -/
def Setting.IsStandard (s : Setting) : Prop :=
  s.models = LibraryModel.standard

theorem Setting.IsStandard.sound {s : Setting} (h : s.IsStandard) : s.Sound := by
  unfold Setting.Sound
  rw [show s.models = LibraryModel.standard from h]
  exact LibraryModel.standard_sound s.program

namespace Build

open Builder (Steps LayoutSteps AllCallsWait)

variable {s : Setting} {p : Program} {b : Builder}

/-! ## Parts of a layout -/

/-- The code that sets up what a free local stands for. -/
theorem linkFreeInit_spec {f : FreeLocal} : TrySpec (Steps p) (do
      if let some (.localVar _ _ m) := p.value? f.decl then
        let init ← funcOf p m .blank
        enqueue init (← entryContext init)) b fun _ _ => True := by
  split
  · refine .seq (.lift funcOf_spec.any) fun init b₁ _ => ?_
    exact .seq (.lift entryContext_spec) fun cid b₂ _ => enqueue_spec
  · exact .pure trivial

theorem linkFree_spec (hb : b.Sound p) {cid : ContextId} {f : FreeLocal} :
    TrySpec (Steps p) (linkFree p cid f) b fun _ _ => True := by
  unfold linkFree
  refine .seq (.lift (valueNode_spec hb).any) fun here b₁ h₁ => ?_
  dsimp only
  split
  · exact .seq (.lift (link_spec (by decide))) fun _ b₂ _ => linkFreeInit_spec
  · rename_i file name _
    refine .seq (.lift (nodeOf_spec (e := .exported file name) (h₁.sound hb) trivial).any)
      fun shared b₂ _ => ?_
    refine .seq (.lift (link_spec (by decide))) fun _ b₃ _ => ?_
    exact .seq (.lift (.discard (addCopyEdge_spec (by decide)))) fun _ b₄ _ => linkFreeInit_spec

theorem staticResult_spec (hb : b.Sound p) {cid : ContextId} {site : CallSite}
    {result : Option ValueId} {args : List (NodeId × Nat)} {thisSrc : Option NodeId} :
    Spec (Steps p) (do
      let result ← match result with
        | some v => some <$> valueNode p cid v
        | none => pure none
      return ({ site := site.id, callerCid := cid, callee := site.callee, thisSrc, args, result } :
        CallBinding)) b fun _ _ => True := by
  cases result with
  | some v => exact .seq (.map (valueNode_spec hb).any) fun _ _ _ => .pure trivial
  | none => exact .pure trivial

theorem staticBinding_spec (hb : b.Sound p) {cid : ContextId} {site : CallSite} {i : Invoke}
    {result : Option ValueId} :
    Spec (Steps p) (staticBinding p cid site i result) b fun _ _ => True := by
  unfold staticBinding
  refine .seq (argNodes_spec hb _ _) fun args b₁ h₁ => ?_
  have hb₁ := h₁.sound hb
  cases i.base with
  | some base =>
    refine .seq (.map (valueNode_spec hb₁).any) fun thisSrc b₂ h₂ => ?_
    exact staticResult_spec (h₂.sound hb₁)
  | none => exact staticResult_spec hb₁

theorem wireStatic_spec (hs : s.Sound) (hb : b.Sound s.program) {cid : ContextId}
    {site : CallSite} : TrySpec (Steps s.program) (wireStatic s cid site) b fun _ _ => True := by
  unfold wireStatic
  dsimp only
  split
  · refine .seq methodOf_spec.any fun callee b₁ h₁ => ?_
    have hb₁ := h₁.sound hb
    split
    · refine .seq (.lift (staticBinding_spec hb₁)) fun binding b₂ h₂ => ?_
      exact .discard (connect_steps enqueue_isStep (h₂.sound hb₁))
    · refine .seq (LibraryModel.runOnCall_spec hb₁ hs) fun taken b₂ _ => ?_
      split
      · exact .lift addUnhandled_spec
      · exact .pure trivial
  · exact .pure trivial

/-- Afterwards the call waits. -/
theorem registerDynamic_spec (hb : b.Sound p) {cid : ContextId} {role : SiteRole}
    (hrole : ∀ index, role ≠ .arg index) {site : DynCallSite} :
    Spec (Steps p) (registerDynamic p cid role site) b fun _ b' =>
      b'.CallWaits p cid site.stmt := by
  unfold registerDynamic
  split
  · rename_i base hbase
    refine .bind (valueNode_spec hb) fun n b₁ _ hn => .discard ?_
    refine (addSite_spec (lt_of_nodeIn? hn)).mono fun _ b₂ h₂ hsite i base' hi hbase' => ?_
    rw [hi, Option.bind_some, hbase'] at hbase
    cases hbase
    exact ⟨n, role, nodeIn?_mono (entityOf_isPlain p base) h₂.grows.pag hn, hrole, hsite⟩
  · rename_i hnone
    refine .pure fun i base hi hbase => ?_
    exact absurd (by rw [hi, Option.bind_some, hbase]) (hnone base)

theorem layEdge_spec (hb : b.Sound p) {cid : ContextId} {e : SummaryEdge} (he : e.Sound p) :
    Spec (Steps p) (layEdge p cid e) b fun _ _ => True := by
  unfold layEdge
  refine .bind (nodeOf_spec hb he.src) fun src b₁ h₁ hsrc => ?_
  refine .seq (nodeOf_spec (h₁.sound hb) he.dst).any fun dst b₂ h₂ => ?_
  refine .discard (addEdge_spec fun hk => ?_)
  exact isObject_of_nodeIn? (h₂.sound (h₁.sound hb)) (nodeIn?_mono he.src h₂.grows.pag hsrc)
    (he.object hk)

/-! ## Layouts -/

theorem layOut_spec (hs : s.Sound) (hb : b.Sound s.program) {cid : ContextId} {summary : Summary}
    (hedges : ∀ e ∈ summary.edges, e.Sound s.program) :
    TrySpec (Steps s.program) (layOut s cid summary) b fun _ b' =>
      ∀ site, site ∈ summary.dynamicCalls ∨ site ∈ summary.unknownCalls →
        b'.CallWaits s.program cid site.stmt := by
  have waits : ∀ role, (∀ index, role ≠ .arg index) → ∀ (sites : List DynCallSite) (b₁ : Builder),
      b₁.Sound s.program → TrySpec (Steps s.program) (sites.forM fun site =>
        (registerDynamic s.program cid role site : Build Unit) : TryBuild Unit) b₁
        fun _ b₂ => ∀ site ∈ sites, b₂.CallWaits s.program cid site.stmt := by
    intro role hrole sites b₁ hb₁
    refine .forM (fun _ _ _ h hw => hw.mono h.grows.pag) fun site _ b₂ h₂ => ?_
    exact .lift (registerDynamic_spec (h₂.sound hb₁) hrole)
  unfold layOut
  dsimp only
  refine .seq (.forM_any fun e he _ h => .lift (layEdge_spec (h.sound hb) (hedges e he)))
    fun _ b₁ h₁ => ?_
  have hb₁ := h₁.sound hb
  refine .seq (.forM_any fun _ _ _ h => linkFree_spec (h.sound hb₁)) fun _ b₂ h₂ => ?_
  have hb₂ := h₂.sound hb₁
  refine .seq (.forM_any fun _ _ _ h => wireStatic_spec hs (h.sound hb₂)) fun _ b₃ h₃ => ?_
  have hb₃ := h₃.sound hb₂
  -- Nothing is asked of the moves, the free locals and the static calls. The others have to wait.
  refine .bind (waits .receiver (by simp) summary.dynamicCalls b₃ hb₃) fun _ b₄ h₄ hdyn => ?_
  refine (waits .unknown (by simp) summary.unknownCalls b₄ (h₄.sound hb₃)).mono ?_
  rintro _ b₅ h₅ hunknown site (hsite | hsite)
  · exact (hdyn site hsite).mono h₅.grows.pag
  · exact hunknown site hsite

/-- A method that has been taken up before is not laid out again. -/
theorem run_instantiate_of_built {f : FuncId} {cid : ContextId} (h : (cid, f) ∈ b.built) :
    (instantiate s f cid).run.run b = (.ok (), b) := by
  have hbuilt : b.built.contains (cid, f) = true := List.contains_iff_mem.2 h
  unfold instantiate
  rw [run_get_bind, hbuilt]
  rfl

theorem run_instantiate_of_not_built {f : FuncId} {cid : ContextId}
    (h : (cid, f) ∉ b.built) :
    (instantiate s f cid).run.run b = (do
      let _ ← summarize s.program f
      if let some summary := (← get).summary? f then layOut s cid summary :
        TryBuild Unit).run.run { b with built := (cid, f) :: b.built } := by
  have hbuilt : b.built.contains (cid, f) = false := by simpa using h
  unfold instantiate
  rw [run_get_bind, hbuilt]
  rfl

/-- Laying out a method registers its calls, and keeps those of the others. -/
theorem instantiate_layoutSteps (hs : s.Sound) (hb : b.Sound s.program)
    {f : FuncId} {cid : ContextId} :
    TrySpec (LayoutSteps s.program) (instantiate s f cid) b fun _ b' =>
      b.AllCallsWait s.program → b'.AllCallsWait s.program := by
  unfold instantiate
  refine .get_bind ?_
  split
  -- From here on the method counts as laid out, although nothing of it is.
  · have htake : Builder.LayoutStep s.program b _ := .takeUp cid f
    have hb₁ := htake.sound hb
    refine .modify_bind (.single htake) ?_
    have hsum := (summarize_spec hb₁ (f := f)).mono fun _ _ h hq => And.intro h hq
    refine .bind (hsum.weaken fun _ => Steps.layoutSteps) fun _ b₂ _ ⟨h₂, summary, hsummary⟩ => ?_
    have hb₂ := h₂.sound hb₁
    have hedges := (hb₂.summary (Builder.mem_of_summary? hsummary)).edges
    refine .get_bind ?_
    rw [hsummary]
    refine TrySpec.weaken ((layOut_spec hs hb₂ hedges).mono fun _ b₃ h₃ hwaits => ?_)
      fun _ => Steps.layoutSteps
    intro hlaid cid' f' hf
    rw [h₃.built, h₂.built] at hf
    -- The method has its calls registered now, and the others keep theirs.
    rcases List.mem_cons.1 hf with heq | hf
    · cases heq
      exact ⟨summary, h₃.grows.summary hsummary, hwaits⟩
    · have hgrows := htake.grows.trans (h₂.grows.trans h₃.grows)
      exact (hlaid cid' f' hf).mono hgrows.pag hgrows.summary
  · exact .pure id

/-- Draining the queue of methods keeps what is laid out. -/
theorem drain_layoutSteps (hs : s.Sound) (n : Nat) (hb : b.Sound s.program) :
    TrySpec (LayoutSteps s.program) (drain s n) b fun _ b' =>
      b.AllCallsWait s.program → b'.AllCallsWait s.program := by
  induction n generalizing b with
  | zero =>
    unfold drain
    refine .get_bind ?_
    split
    · exact .throw
    · exact .pure id
  | succ n ih =>
    unfold drain
    refine .get_bind ?_
    split
    · exact .pure id
    · rename_i f cid rest _
      have hnote : Steps s.program b { b with pending := rest } :=
        .of_step (.note b.contexts rest b.singletons b.unhandled)
      refine .modify_bind hnote.layoutSteps ?_
      refine .bind (instantiate_layoutSteps hs (hnote.sound hb)) fun _ b₁ h₁ hlaid₁ => ?_
      refine (ih (h₁.sound (hnote.sound hb))).mono fun _ b₂ _ hlaid₂ hlaid => ?_
      exact hlaid₂ (hlaid₁ (hlaid.steps hnote))

/-- What was laid out in `b` stays so. -/
theorem keepsCallsWait_stepInvariant (b : Builder) :
    StepInvariant p (LayoutSteps p) fun b' => b.AllCallsWait p → b'.AllCallsWait p :=
  ⟨Steps.layoutSteps, LayoutSteps.sound, fun h hl hlaid => (hl hlaid).steps h⟩

theorem enterNow_layoutSteps (hs : s.Sound) (hb : b.Sound s.program)
    {f : FuncId} {cid : ContextId} :
    TrySpec (LayoutSteps s.program) (enterNow s f cid) b fun _ b' =>
      b.AllCallsWait s.program → b'.AllCallsWait s.program := by
  refine .bind ((keepsCallsWait_stepInvariant b).lift enqueue_spec id) fun _ b₁ h₁ ⟨_, hlaid₁⟩ => ?_
  exact (drain_layoutSteps hs s.fuel (h₁.sound hb)).mono fun _ _ _ hlaid₂ hlaid =>
    hlaid₂ (hlaid₁ hlaid)

theorem enterEntry_layoutSteps (hs : s.Sound) (hb : b.Sound s.program) {f : FuncId} :
    TrySpec (LayoutSteps s.program) (enterEntry s f) b fun _ b' =>
      b.AllCallsWait s.program → b'.AllCallsWait s.program := by
  refine .bind ((keepsCallsWait_stepInvariant b).lift (.lift entryContext_spec) id)
    fun cid b₁ h₁ ⟨_, hlaid₁⟩ => ?_
  refine .bind (enterNow_layoutSteps hs (h₁.sound hb)) fun _ b₂ _ hlaid₂ => ?_
  exact .pure fun hlaid => hlaid₂ (hlaid₁ hlaid)

theorem connect_layoutSteps (hs : s.Sound) (hb : b.Sound s.program) {c : CallBinding} :
    TrySpec (LayoutSteps s.program) (connect s.program (enterNow s) c) b fun _ b' =>
      b.AllCallsWait s.program → b'.AllCallsWait s.program :=
  connect_spec (keepsCallsWait_stepInvariant b) (fun _ _ h₁ hlaid₁ =>
    (enterNow_layoutSteps hs (h₁.sound hb)).mono fun _ _ _ hlaid₂ hlaid =>
      hlaid₂ (hlaid₁ hlaid)) hb id

theorem runModels_layoutSteps (hs : s.Sound) (hb : b.Sound s.program)
    {c : ModelCall} {role : SiteRole}
    {obj : NodeId} : TrySpec (LayoutSteps s.program) (runModels s c role obj) b fun _ b' =>
      b.AllCallsWait s.program → b'.AllCallsWait s.program := by
  refine .bind ((keepsCallsWait_stepInvariant b).lift
    (LibraryModel.runOnObject_spec enqueue_isStep hb hs) id) fun handled b₁ h₁ ⟨_, hlaid₁⟩ => ?_
  refine .bind (drain_layoutSteps hs s.fuel (h₁.sound hb)) fun _ b₂ _ hlaid₂ => ?_
  exact .pure fun hlaid => hlaid₂ (hlaid₁ hlaid)

/-! ## With all methods laid out -/

theorem layoutSteps_stepInvariant : StepInvariant p (LayoutSteps p) (AllCallsWait p) :=
  ⟨Steps.layoutSteps, LayoutSteps.sound, fun h hl => hl.steps h⟩

section Laid

variable (hs : s.Sound) (hb : b.Sound s.program) (hlaid : b.AllCallsWait s.program)
include hs hb hlaid

theorem drain_spec (n : Nat) :
    TrySpec (LayoutSteps s.program) (drain s n) b fun _ b' => b'.AllCallsWait s.program :=
  (drain_layoutSteps hs n hb).mono fun _ _ _ h => h hlaid

theorem enterEntry_spec {f : FuncId} :
    TrySpec (LayoutSteps s.program) (enterEntry s f) b fun _ b' => b'.AllCallsWait s.program :=
  (enterEntry_layoutSteps hs hb).mono fun _ _ _ h => h hlaid

theorem connect_allCallsWait {c : CallBinding} :
    TrySpec (LayoutSteps s.program) (connect s.program (enterNow s) c) b fun _ b' =>
      b'.AllCallsWait s.program :=
  (connect_layoutSteps hs hb).mono fun _ _ _ h => h hlaid

theorem runModels_spec {c : ModelCall} {role : SiteRole} {obj : NodeId} :
    TrySpec (LayoutSteps s.program) (runModels s c role obj) b fun _ b' =>
      b'.AllCallsWait s.program :=
  (runModels_layoutSteps hs hb).mono fun _ _ _ h => h hlaid

end Laid

end Build

end PointsTo
