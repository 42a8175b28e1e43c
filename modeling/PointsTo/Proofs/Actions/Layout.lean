import PointsTo.Builder.Instantiate
import PointsTo.Proofs.Actions.Library
import PointsTo.Proofs.Builder.Layout
import PointsTo.Proofs.Lockstep.Effects

/-!
# Laying out is a sequence of actions

Only methods that have been taken up are laid out, so the nodes of what their summaries mention have
an origin. When the queue is worked off without failure, nothing waits any more. So what has been
asked for is laid out then.
-/

namespace PointsTo

open Builder (Action Actions)

/-- All that the models of the setting do are actions. -/
def Setting.ByActions (s : Setting) : Prop :=
  ∀ m ∈ s.models, m.ByActions s.program

theorem Setting.IsStandard.byActions {s : Setting} (h : s.IsStandard) : s.ByActions := by
  unfold Setting.ByActions
  rw [h]
  exact LibraryModel.standard_byActions s.program

variable {s : Setting} {p : Program} {b b' : Builder} {cid : ContextId} {f : FuncId}

namespace Build

/-! ## The parts of a layout -/

/-- The method with the code that sets up what a free local stands for is asked for as such. -/
theorem linkFreeInit_actions {summary : Summary} (hsum : b.summary? f = some summary)
    {x : FreeLocal} (hx : x ∈ summary.free) : TrySpec (Actions p) (do
      if let some (.localVar _ _ m) := p.value? x.decl then
        let init ← funcOf p m .blank
        enqueue init (← entryContext init)) b fun _ _ => True := by
  split
  · rename_i name ty m hdecl
    refine .bind (.lift funcOf_names) fun init b₁ h₁ hm => ?_
    have hask := Action.ask (p := p) init (.init (h₁.extends.summary hsum) hx hdecl hm)
    exact ⟨.of_action hask, fun _ _ => trivial⟩
  · exact .pure trivial

theorem linkFree_actions {summary : Summary} (hf : (cid, f) ∈ b.built)
    (hsum : b.summary? f = some summary) {x : FreeLocal} (hx : x ∈ summary.free) :
    TrySpec (Actions p) (linkFree p cid x) b fun _ _ => True := by
  have horigin : b.Origin p cid (entityOf p x.name) := by
    refine Builder.origin_of_mentions hf hsum fun v hv => Or.inr ⟨x, hx, ?_⟩
    unfold entityOf at hv
    split at hv <;> cases hv
    rfl
  unfold linkFree
  refine .seq (.lift (nodeOf_actions horigin)) fun here b₁ h₁ => ?_
  have hsum₁ := h₁.extends.summary hsum
  dsimp only
  split
  · refine .seq (.lift link_actions.spec) fun _ b₂ h₂ => ?_
    exact linkFreeInit_actions (h₂.extends.summary hsum₁) hx
  · have hshared : ∀ file name, Guarantees (Actions p)
      (nodeOf p Context.root (.exported file name)) :=
      fun _ _ => nodeOf_actions_of_ne_value nofun
    refine .seq (.lift (hshared _ _).spec) fun shared b₂ h₂ => ?_
    refine .seq (.lift link_actions.spec) fun _ b₃ h₃ => ?_
    refine .seq (.lift (.discard addEdge_actions.spec)) fun _ b₄ h₄ => ?_
    exact linkFreeInit_actions
      (h₄.extends.summary (h₃.extends.summary (h₂.extends.summary hsum₁))) hx

theorem layEdge_actions {summary : Summary} (hf : (cid, f) ∈ b.built)
    (hsum : b.summary? f = some summary) {e : SummaryEdge} (he : e ∈ summary.edges) :
    Spec (Actions p) (layEdge p cid e) b fun _ _ => True := by
  have hsrc : b.Origin p cid e.src :=
    Builder.origin_of_mentions hf hsum fun v hv => Or.inl ⟨e, he, Or.inl hv⟩
  have hdst : b.Origin p cid e.dst :=
    Builder.origin_of_mentions hf hsum fun v hv => Or.inl ⟨e, he, Or.inr hv⟩
  refine .seq (nodeOf_actions hsrc) fun src b₁ h₁ => ?_
  refine .seq (nodeOf_actions (hdst.mono h₁.extends)) fun dst b₂ _ => ?_
  exact .discard addEdge_actions.spec

theorem staticResult_actions {site : CallSite} {result : Option ValueId}
    (hresult : ∀ v, result = some v → ¬p.OnlyAssigned v) {args : List (NodeId × Nat)}
    {thisSrc : Option NodeId} : Guarantees (Actions p) (do
      let result ← match result with
        | some v => some <$> valueNode p cid v
        | none => pure none
      return ({ site := site.id, callerCid := cid, callee := site.callee, thisSrc, args, result } :
        CallBinding)) := by
  cases result with
  | some v => exact .bind (.map (valueNode_actions (hresult v rfl))) fun _ => .pure
  | none => exact .pure

theorem staticBinding_actions {site : CallSite} {i : Invoke}
    (hi : p.invokeOf? site.stmt = some i) {result : Option ValueId}
    (hresult : ∀ v, result = some v → ¬p.OnlyAssigned v) :
    Guarantees (Actions p) (staticBinding p cid site i result) := by
  unfold staticBinding
  refine .bind (argNodes_actions _ _) fun args => ?_
  cases hbase : i.base with
  | some base =>
    have hplace := Program.not_onlyAssigned_dealias (Program.not_onlyAssigned_of_invoke hi hbase)
    exact .bind (.map (valueNode_actions hplace)) fun thisSrc => staticResult_actions hresult
  | none => exact staticResult_actions hresult

theorem enqueue_byActions : Enter.ByActions p enqueue :=
  fun _ _ => enterCallee_enqueue

theorem wireStatic_actions (hs : s.ByActions) {site : CallSite} :
    GuaranteesOn .all (Actions s.program) (wireStatic s cid site) := by
  unfold wireStatic
  dsimp only
  split
  · rename_i i hi
    refine .bind (.of_spec fun _ => methodOf_actions) fun callee => ?_
    split
    · have hresult v (hv : (s.program.stmt? site.stmt).bind Stmt.defValue? = some v) :=
        Program.not_onlyAssigned_of_defValue? hv
      refine .bind (.lift (staticBinding_actions hi hresult)) fun _ => ?_
      exact .discard (.of_spec fun _ => connect_actions enqueue_byActions)
    · refine .bind (LibraryModel.runOnCall_actions hs ⟨hi, rfl⟩) fun taken => ?_
      split
      · exact .lift addUnhandled_actions
      · exact .pure
  · exact .pure

theorem registerDynamic_actions {role : SiteRole} {site : DynCallSite} :
    Guarantees (Actions p) (registerDynamic p cid role site) := by
  unfold registerDynamic
  split
  · rename_i base hbase
    obtain ⟨i, hi, hbase⟩ := Option.bind_eq_some_iff.1 hbase
    refine .bind (valueNode_actions (Program.not_onlyAssigned_of_invoke hi hbase)) fun _ => ?_
    exact .discard addSite_actions
  · exact .pure

theorem layOut_actions (hs : s.ByActions) {summary : Summary} (hf : (cid, f) ∈ b.built)
    (hsum : b.summary? f = some summary) :
    TrySpec (Actions s.program) (layOut s cid summary) b fun _ _ => True := by
  -- The moves may name objects, so they need to know that the method stays taken up.
  have hedge : ∀ e ∈ summary.edges, ∀ b', Actions s.program b b' →
      TrySpec (Actions s.program) (liftM (layEdge s.program cid e) : TryBuild Unit) b'
        fun _ _ => True :=
    fun e he b' h' => .lift (layEdge_actions (h'.extends.built hf) (h'.extends.summary hsum) he)
  unfold layOut
  refine .seq (.forM_any hedge) fun _ b₁ h₁ =>
    .seq (.forM_any fun x hx b₂ h₂ => ?_) fun _ b₂ _ => ?_
  · have h := (h₁.extends.trans h₂.extends)
    exact linkFree_actions (h.built hf) (h.summary hsum) hx
  · have hrest : GuaranteesOn .all (Actions s.program) (do
        summary.staticCalls.forM (wireStatic s cid)
        summary.dynamicCalls.forM fun site =>
          (registerDynamic s.program cid .receiver site : Build Unit)
        summary.unknownCalls.forM fun site =>
          (registerDynamic s.program cid .unknown site : Build Unit) : TryBuild Unit) := by
      refine .bind (.forM fun _ _ => wireStatic_actions hs) fun _ => ?_
      exact .bind (.forM fun _ _ => .lift registerDynamic_actions) fun _ =>
        .forM fun _ _ => .lift registerDynamic_actions
    exact hrest.spec

/-! ## The queue -/

/-- What is done with a method that has been taken up. -/
theorem layOutTaken_actions (hs : s.ByActions) (hf : (cid, f) ∈ b.built) :
    TrySpec (Actions s.program) (do
    let _ ← summarize s.program f
    if let some summary := (← get).summary? f then layOut s cid summary) b fun _ _ => True := by
  refine .seq summarize_actions.any fun _ b₁ h₁ => .get_bind ?_
  split
  · rename_i summary hsum
    exact layOut_actions hs (h₁.extends.built hf) hsum
  · exact .pure trivial

/-- Takes the next method from the queue. -/
theorem instantiateNext_actions (hs : s.ByActions) {rest : List (FuncId × ContextId)}
    (hnext : b.pending = (f, cid) :: rest) : TrySpec (Actions s.program) (do
      modify fun b => { b with pending := rest }
      instantiate s f cid) b fun _ _ => True := by
  have hpop : (do
      modify fun b => { b with pending := rest }
      instantiate s f cid : TryBuild Unit).run.run b =
        (instantiate s f cid).run.run { b with pending := rest } := rfl
  by_cases hbuilt : (cid, f) ∈ b.built
  · have hdrop : Actions s.program b { b with pending := rest } := .of_action (.drop hnext hbuilt)
    have hdone : TrySpec (Actions s.program) (pure () : TryBuild Unit) { b with pending := rest }
        fun _ _ => True := .pure trivial
    exact .of_run_eq hdrop (hpop.trans (run_instantiate_of_built hbuilt)) hdone
  · -- The method is taken from the queue and counts as laid out in one action.
    have htake : Actions s.program b { b with pending := rest, built := (cid, f) :: b.built } :=
      .of_action (.takeUp hnext)
    exact .of_run_eq htake (hpop.trans (run_instantiate_of_not_built hbuilt))
      (layOutTaken_actions hs List.mem_cons_self)

/-- Afterwards nothing waits. -/
theorem drain_actions (hs : s.ByActions) (n : Nat) :
    TrySpec (Actions s.program) (drain s n) b fun _ b' => b'.pending = [] := by
  induction n generalizing b with
  | zero =>
    unfold drain
    refine .get_bind ?_
    split
    · exact .throw
    · rename_i hempty
      exact .pure (by simpa using hempty)
  | succ n ih =>
    unfold drain
    refine .get_bind ?_
    split
    · rename_i hempty
      exact .pure hempty
    · rename_i f cid rest hnext
      rw [← bind_assoc]
      exact .seq (instantiateNext_actions hs hnext) fun _ _ _ => ih

/-- What has been asked for is laid out if nothing waits. -/
theorem built_of_requested (h : b.Requested f cid) (hempty : b.pending = []) : (cid, f) ∈ b.built :=
  h.resolve_left (by simp [hempty])

/-- The callee of the call is laid out then, in the context of the call. -/
theorem enterCallee_enterNow (hs : s.ByActions) {c : CallBinding} :
    TrySpec (Actions s.program) (enterCallee s.program (enterNow s) c) b fun cid b' =>
      (cid, c.callee) ∈ b'.built ∧
        Builder.CallContext b b' c.callerCid c.site c.contextObj c.callee cid := by
  have heq : enterCallee s.program (enterNow s) c = (do
      let cid ← enterCallee s.program enqueue c
      drain s s.fuel
      return cid) := by
    simp only [enterCallee, enterNow, bind_assoc, pure_bind]
  rw [heq]
  refine .bind enterCallee_enqueue ?_
  rintro cid b₁ - ⟨hasked, hcontext⟩
  refine .bind (drain_actions hs s.fuel) fun _ b₂ h₂ hempty => .pure ?_
  exact ⟨built_of_requested (h₂.extends.requested hasked) hempty, hcontext.mono .rfl h₂.extends⟩

theorem enterNow_byActions (hs : s.ByActions) : Enter.ByActions s.program (enterNow s) :=
  fun _ _ => (enterCallee_enterNow hs).mono fun _ _ _ h => ⟨Or.inr h.1, h.2⟩

/-- The entry is laid out then, in the context that is answered. -/
theorem enterEntry_actions (hs : s.ByActions) (hf : f ∈ b.graph.entries) :
    TrySpec (Actions s.program) (enterEntry s f) b fun cid b' =>
      (cid, f) ∈ b'.built ∧ b'.pending = [] := by
  have hask : Action s.program b _ := .ask f (.entry hf)
  have hdrain : TrySpec (Actions s.program) (do
      drain s s.fuel
      return (b.contexts.entry f).1) { b with
        contexts := (b.contexts.entry f).2
        pending := b.pending ++ [(f, (b.contexts.entry f).1)] }
      fun cid b' => (cid, f) ∈ b'.built ∧ b'.pending = [] := by
    refine .bind (drain_actions hs s.fuel) fun _ b₁ h₁ hempty => .pure ⟨?_, hempty⟩
    refine built_of_requested (h₁.extends.requested (Or.inl ?_)) hempty
    exact List.mem_append_right _ (List.mem_singleton_self _)
  exact .of_run_eq (.of_action hask) rfl hdrain

theorem runModels_actions (hs : s.ByActions) {c : ModelCall} (hc : c.OfProgram s.program)
    {role : SiteRole} {obj : NodeId} :
    GuaranteesOn .all (Actions s.program) (runModels s c role obj) := by
  refine .bind (LibraryModel.runOnObject_actions hs enqueue_byActions hc) fun _ => ?_
  exact .bind (.of_spec fun _ => drain_actions hs s.fuel) fun _ => .pure

end Build

end PointsTo
