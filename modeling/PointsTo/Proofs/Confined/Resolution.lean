import PointsTo.Proofs.Analysis.Calls
import PointsTo.Proofs.Confined.Layout
import PointsTo.Proofs.Confined.Propagation

/-!
# Resolving calls comes to an end

A call that waits is a call of the program, and what an object tells about it is a method that the
program names. So looking at a call keeps the builder confined, and it comes to an end since laying
out methods does (`processSite_terminates`).
-/

namespace PointsTo

variable {s : Setting} {p : Program} {g : CallGraph} {objects : Nat}

/-- The id of the call that a statement makes is one that the call graph has. -/
theorem Builder.Confined.hasId_siteAt {b : Builder} (hb : b.Confined p g) (stmt : StmtId) :
    g.HasId (Analysis.siteAt b.graph stmt) := by
  unfold Analysis.siteAt
  split
  · rename_i d hd
    refine Or.inr (Or.inr ⟨d, ?_, rfl⟩)
    rw [← hb.graph.dynSites]
    exact Array.mem_of_find?_eq_some hd
  · rename_i site rest _ hsites
    have hmem : site ∈ b.graph.sitesAt stmt := by simp [hsites]
    refine Or.inr (Or.inl ⟨site, ?_, rfl⟩)
    rw [← hb.graph.sites]
    exact Array.mem_toList_iff.1 (List.mem_filter.1 hmem).1
  · exact Or.inl rfl

/-- What an object tells about a call is a method that the program names. -/
theorem Builder.Confined.namesMethod_of_resolve? {b : Builder} (hb : b.Confined p g) {i : Invoke}
    {obj : NodeId} {m : MethodSig} {fn : Option FunctionObject}
    (h : p.resolve? b.pag i obj = some (m, fn)) : p.NamesMethod g m ∧
      ∀ {f}, fn.bind FunctionObject.func = some f → f < b.graph.nodes.size := by
  unfold Program.resolve? at h
  split at h
  · rename_i fn' _ hkind
    obtain ⟨x, hx, hk⟩ := Option.map_eq_some_iff.1 hkind
    cases h
    have hfn : x.kind.function? = some fn' := by
      rw [hk]
      rfl
    exact (hb.node hx).kind.function hfn
  · obtain ⟨m', htarget, heq⟩ := Option.map_eq_some_iff.1 h
    cases heq
    refine ⟨?_, nofun⟩
    split at htarget
    · exact Program.namesMethod_of_findMethod? htarget
    · split at htarget
      · rcases Option.or_eq_some_iff.1 htarget with hm | ⟨-, hm⟩
        · exact Program.namesMethod_of_findMethod? hm
        · exact Program.namesMethod_of_findMethod? hm
      · exact Program.namesMethod_of_findMethod? htarget
  · cases h

namespace Analysis

open Build

variable {a : Analysis} {α : Type} {c : ModelCall} {n obj : NodeId}

theorem build_terminates {step : Nat → TryBuild α} {Q : α → Builder → Prop}
    (h : Terminates p.IsMisplaced (Builder.KeepsConfined p g) (Builder.Exceeds objects) step
      a.builder Q) :
    Terminates p.IsMisplaced (KeepsConfined p g) (Exceeds objects)
      (fun n => build (step n)) a fun x a' => Q x a'.builder where
  runs n := ⟨⟨.build (h.runs n).spec.1, (h.runs n).spec.2⟩, (h.runs n).fails⟩
  ends := by
    refine h.ends.imp id ?_
    rintro ⟨r, hr, hrun⟩
    refine ⟨(r.1, { a with builder := r.2 }), hr, hrun.mono fun n hn => ?_⟩
    exact congrArg (fun r : Except Failure α × Builder => (r.1, { a with builder := r.2 })) hn

theorem build_any {step : Nat → TryBuild α}
    (h : Terminates p.IsMisplaced (Builder.KeepsConfined p g) (Builder.Exceeds objects) step
      a.builder fun _ _ => True) :
    Terminates p.IsMisplaced (KeepsConfined p g) (Exceeds objects) (fun n => build (step n)) a
      fun _ _ => True :=
  build_terminates h

/-- A request that takes no fuel. -/
theorem build_tryTerminates {step : TryBuild α} {Q : α → Builder → Prop}
    (h : TryTerminates p.IsMisplaced (Builder.KeepsConfined p g) step a.builder Q) :
    Terminates p.IsMisplaced (KeepsConfined p g) (Exceeds objects)
      (fun _ => build step) a fun x a' => Q x a'.builder :=
  build_terminates (.of_tryTerminates h)

theorem countResolved_terminates {isNew : Bool} :
    Terminates p.IsMisplaced (KeepsConfined p g) (Exceeds objects) (fun _ => countResolved isNew) a
      fun _ a' => a'.builder = a.builder := by
  refine .of_tryTerminates (.modify ?_ ?_)
  · split
    · exact .of_builder rfl fun _ => id
    · exact refl_of (KeepsConfined p g) a
  · split <;> rfl

/-! ## Callees -/

theorem callee_terminates {b : Builder} {m : MethodSig} {fn : Option FunctionObject}
    (hm : p.NamesMethod g m)
    (hfn : ∀ {f}, fn.bind FunctionObject.func = some f → f < b.graph.nodes.size) :
    TryTerminates p.IsMisplaced (Builder.KeepsConfined p g) (match fn.bind FunctionObject.func with
      | some f => pure f
      | none => funcOf p m .virtual : TryBuild FuncId) b fun f b' => f < b'.graph.nodes.size := by
  split
  · rename_i f hf
    exact .pure (hfn hf)
  · exact .lift (funcOf_keepsConfined hm)

theorem resolvedBinding_keepsConfined {b : Builder} (hc : c.Confined p g b)
    (hobj : b.pag.isObject obj = true) {callee : FuncId} (hcallee : callee < b.graph.nodes.size)
    {fn : Option FunctionObject} :
    Spec (Builder.KeepsConfined p g) (resolvedBinding p c n obj callee fn) b
      fun binding b' => binding.Confined g b' := by
  have done :
    ∀ {b'}, Builder.KeepsConfined p g b b' → c.Confined p g b' ∧ callee < b'.graph.nodes.size ∧
      b'.pag.isObject obj = true := fun h =>
    ⟨hc.keep h, h.expands.func hcallee, h.expands.pag.isObject hobj⟩
  cases fn with
  | some fn =>
    refine .get_bind (.seq (argNodes_keepsConfined hc.builder hc.caller _ _) fun args b₁ h₁ => ?_)
    refine .seq (resultNode?_keepsConfined (hc.keep h₁)) fun result b₂ h₂ => .pure ?_
    have h := trans_of (Builder.KeepsConfined p g) h₁ h₂
    obtain ⟨hc₂, hcallee₂, hobj₂⟩ := done h
    refine hc₂.binding hcallee₂ hobj₂ fun cid hcid => ?_
    obtain ⟨x, hx, rfl⟩ := Option.map_eq_some_iff.1 hcid
    exact h.expands.hasContext (hc.builder.hasContext_of_isObject hobj hx)
  | none =>
    have finish :
      ∀ (receiver : NodeId) b₁, Builder.KeepsConfined p g b b₁ →
      Spec (Builder.KeepsConfined p g) (do
        let args ← argNodes p c.callerCid c.invoke.args 0
        let result ← resultNode? p c
        return ({ c.binding callee obj with thisSrc := some receiver, args, result } :
          CallBinding)) b₁ fun binding b' => binding.Confined g b' := by
      intro receiver b₁ h₁
      have hc₁ := hc.keep h₁
      refine .seq (argNodes_keepsConfined hc₁.builder hc₁.caller _ _) fun args b₂ h₂ => ?_
      refine .seq (resultNode?_keepsConfined (hc₁.keep h₂)) fun result b₃ h₃ => .pure ?_
      obtain ⟨hc₃, hcallee₃, hobj₃⟩ :=
        done (trans_of (Builder.KeepsConfined p g) h₁ (trans_of (Builder.KeepsConfined p g) h₂ h₃))
      exact hc₃.binding hcallee₃ hobj₃ nofun
    unfold resolvedBinding
    cases hbase : c.invoke.base with
    | some base =>
      have hmentions := Program.mentions_dealias (Program.mentions_of_invokeOf? hc.invoke hbase)
      exact .seq (valueNode_keepsConfined hc.builder hc.caller hmentions) finish
    | none => exact finish n b (refl_of (Builder.KeepsConfined p g) b)

/-- Connecting a call and entering the callee. -/
theorem connectNow_terminates (hs : s.IsStandard) {b : Builder} (hb : b.Confined s.program g)
    {binding : CallBinding} (hbinding : binding.Confined g b) :
    Terminates s.program.IsMisplaced (Builder.KeepsConfined s.program g) (Builder.Exceeds objects)
      (fun n => discard (connect s.program (enterNow (s.withFuel n)) binding)) b fun _ _ => True :=
  .discard (connect_terminates (enterNow_terminates hs) hb hbinding)

theorem callResolved_terminates (hs : s.IsStandard) (hc : c.Confined s.program g a.builder)
    (hobj : a.pag.isObject obj = true) {m : MethodSig} {fn : Option FunctionObject}
    (hm : s.program.NamesMethod g m)
    (hfn : ∀ {f}, fn.bind FunctionObject.func = some f → f < a.builder.graph.nodes.size) :
    Terminates s.program.IsMisplaced (KeepsConfined s.program g) (Exceeds objects)
      (fun k => callResolved (s.withFuel k) c n obj m fn) a
      fun _ _ => True := by
  unfold callResolved
  dsimp only [Setting.program_withFuel]
  refine .bind (build_tryTerminates (callee_terminates hm hfn))
    fun callee a₁ h₁ hcallee => .get_bind ?_
  refine .seq (build_tryTerminates (.lift (addCall_keepsConfined hc.stmt_lt))) fun isNew a₂ h₂ => ?_
  refine .bind countResolved_terminates fun _ a₃ h₃ heq => ?_
  have h₁₃ := trans_of (KeepsConfined s.program g) h₁ (trans_of (KeepsConfined s.program g) h₂ h₃)
  cases callee == c.caller || a₁.builder.graph.reachable callee c.caller with
  | true => exact .pure trivial
  | false =>
    simp only [Bool.not_false, if_true]
    refine build_any
      (.bind (.of_tryTerminates (.lift (resolvedBinding_keepsConfined (hc.keep h₁₃.toKeepsConfined)
        (h₁₃.expands.pag.isObject hobj) ?_))) fun binding b₁ hb₁ hbinding => ?_)
    · exact h₃.expands.func (h₂.expands.func hcallee)
    · exact connectNow_terminates hs (hb₁.confined (h₁₃.confined hc.builder)) hbinding

theorem callBack_terminates (hs : s.IsStandard) (hc : c.Confined s.program g a.builder)
    (hobj : a.pag.isObject obj = true) :
    Terminates s.program.IsMisplaced (KeepsConfined s.program g) (Exceeds objects)
      (fun k => callBack (s.withFuel k) c obj) a
      fun _ _ => True := by
  unfold callBack
  refine .get_bind ?_
  cases hfn : a.pag.function? obj with
  | none => exact .pure trivial
  | some fn =>
    refine .bind (build_tryTerminates (.lift (functionCallee_keepsConfined hc.builder hfn)))
      fun callee a₁ h₁ hcallee => ?_
    refine .seq (build_tryTerminates (.lift (addCall_keepsConfined hc.stmt_lt)))
      fun isNew a₂ h₂ => ?_
    refine .seq countResolved_terminates.any fun _ a₃ h₃ => build_any ?_
    have h₁₃ := trans_of (KeepsConfined s.program g) h₁ (trans_of (KeepsConfined s.program g) h₂ h₃)
    refine connectNow_terminates hs (h₁₃.confined hc.builder)
      ((hc.keep h₁₃.toKeepsConfined).binding ?_ ?_ nofun)
    · exact h₃.expands.func (h₂.expands.func hcallee)
    · exact h₁₃.expands.pag.isObject hobj

theorem leaveToModels_terminates (hs : s.IsStandard) (hc : c.Confined s.program g a.builder)
    (hobj : a.pag.isObject obj = true) {role : SiteRole} :
    Terminates s.program.IsMisplaced (KeepsConfined s.program g) (Exceeds objects)
      (fun k => leaveToModels (s.withFuel k) c role obj) a
      fun _ _ => True := by
  unfold leaveToModels
  refine .seq (build_terminates (runModels_terminates hs hc hobj)) fun handled a₁ h₁ => ?_
  cases handled with
  | true => exact .pure trivial
  | false =>
    exact .seq (build_tryTerminates (.lift addUnhandled_keepsConfined)) fun _ _ _ => .pure trivial

/-! ## One call and one object -/

theorem receiverCall_terminates (hs : s.IsStandard) (hc : c.Confined s.program g a.builder)
    (hobj : a.pag.isObject obj = true) {role : SiteRole} :
    Terminates s.program.IsMisplaced (KeepsConfined s.program g) (Exceeds objects)
      (fun k => receiverCall (s.withFuel k) c n role obj) a
      fun _ _ => True := by
  unfold receiverCall
  refine .get_bind ?_
  dsimp only [Setting.program_withFuel]
  cases hres : s.program.resolve? a.pag c.invoke obj with
  | some r =>
    obtain ⟨m, fn⟩ := r
    by_cases hbody : s.program.hasBody m = true
    · simp only [hbody, if_true]
      obtain ⟨hm, hfn⟩ := hc.builder.namesMethod_of_resolve? hres
      exact callResolved_terminates hs hc hobj hm hfn
    · have hc' : ModelCall.Confined s.program g a.builder { c with callee := m } :=
        ⟨hc.builder, hc.invoke, hc.result, hc.caller, hc.site⟩
      simp only [hbody]
      exact .discard (leaveToModels_terminates hs hc' hobj)
  | none =>
    refine .seq (leaveToModels_terminates hs hc hobj) fun taken a₁ h₁ => ?_
    cases taken with
    | true => exact .pure trivial
    | false =>
      refine build_tryTerminates (.forM_any fun index _ b₁ hb₁ => .lift (watchArg_keepsConfined ?_))
      exact (hc.keep h₁.toKeepsConfined).keep hb₁

theorem processSite_terminates (hs : s.IsStandard) (hb : a.builder.Confined s.program g)
    (hn : a.pag.IsOwner n) (hobj : a.pag.isObject obj = true) {site : SiteRef} :
    Terminates s.program.IsMisplaced (KeepsConfined s.program g) (Exceeds objects)
      (fun k => processSite (s.withFuel k) n site obj) a
      fun _ _ => True := by
  unfold processSite
  dsimp only [Setting.program_withFuel]
  cases hinvoke : s.program.invokeOf? site.stmt with
  | none => exact .pure trivial
  | some invoke =>
    cases hstmt : s.program.stmt? site.stmt with
    | none => exact .pure trivial
    | some stmt =>
      refine .get_bind ?_
      obtain ⟨x, hx, -⟩ := id hn
      simp only [hx]
      refine .seq
        (build_tryTerminates
          (.lift (funcOf_keepsConfined (Program.namesMethod_of_stmt? hstmt)))).any
        fun caller a₁ h₁ => .get_bind ?_
      have hb₁ := h₁.confined hb
      have hobj₁ := h₁.expands.pag.isObject hobj
      have hc : ModelCall.Confined s.program g a₁.builder {
          stmt := site.stmt, caller, callerCid := x.cid
          site := siteAt a₁.builder.graph site.stmt
          callee := invoke.method, invoke, result := stmt.defValue? } := {
        builder := hb₁
        invoke := hinvoke
        result := by rw [hstmt]; rfl
        caller := h₁.expands.hasContext (hb.hasContext_of_isOwner hn hx)
        site := hb₁.hasId_siteAt site.stmt }
      generalize site.role = role
      cases role with
      | arg index =>
        refine .seq (build_any (runModels_terminates hs hc hobj₁)) fun taken a₂ h₂ => ?_
        cases taken with
        | true => exact .pure trivial
        | false =>
          exact callBack_terminates hs (hc.keep h₂.toKeepsConfined) (h₂.expands.pag.isObject hobj₁)
      | receiver => exact receiverCall_terminates hs hc hobj₁
      | unknown => exact receiverCall_terminates hs hc hobj₁

end Analysis

end PointsTo
