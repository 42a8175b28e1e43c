import PointsTo.Proofs.Analysis.Closure

/-!
# Completeness of the call graph

A call that depends on its receiver, or goes through a pointer, is resolved object by object. When
an analysis of the whole program completes, this has been done for every object that the receiver or
the pointer has in the end, in every context that the caller was laid out in: the call graph has all
the callees that the objects tell (`receivers_dispatched`). It makes no difference whether the
object or the call came first, nor whether the callee was entered.
-/

namespace PointsTo.Analysis

variable {p : Program} {seed : Seed} {entries : List MethodSig} {c : Config} {scale : Scale}
  {a : Analysis}

/-- The statement is a call of a method `f` that was laid out in the context `cid`. The call has a
dynamic site, and its receiver or its pointer is at the node `n`. -/
structure DynamicCall (p : Program) (a : Analysis) (cid : ContextId) (f : FuncId) (stmt : StmtId)
    (i : Invoke) (n : NodeId) : Prop where
  laidOut : (cid, f) ∈ a.builder.built
  ofMethod : ∃ st decl, p.stmt? stmt = some st ∧ a.builder.graph.methodOf? f = some st.method ∧
    p.method? st.method = some decl ∧ stmt ∈ decl.stmts
  invoke : p.invokeOf? stmt = some i
  kind : i.kind = .member ∨ i.kind = .pointer
  site : (a.builder.graph.dynSiteAt? stmt).isSome = true
  base : ∃ v, i.base = some v ∧ Build.nodeIn? a.pag cid (Build.entityOf p v) = some n

/-- The call waits at its node. -/
theorem DynamicCall.waits {cid : ContextId} {f : FuncId} {stmt : StmtId} {i : Invoke} {n : NodeId}
    (h : a.DynamicCall p cid f stmt i n) (hlaid : a.builder.AllCallsWait p)
    (hsound : a.builder.Sound p) :
    ∃ role, (∀ index, role ≠ .arg index) ∧ ⟨stmt, role⟩ ∈ a.pag.sitesOf n := by
  obtain ⟨s, hs, hwaits⟩ := hlaid cid f h.laidOut
  obtain ⟨st, decl, -, hf, hdecl, hstmt⟩ := h.ofMethod
  obtain ⟨site, hsite⟩ := Option.isSome_iff_exists.1 h.site
  obtain ⟨m, hm, hcalls⟩ := (hsound.summary (Builder.mem_of_summary? hs)).calls
  cases hf.symm.trans hm
  have hkind : i.kind ≠ .named := by
    rcases h.kind with hk | hk <;> simp [hk]
  have heq : site.stmt = stmt := by
    simpa using Array.find?_some hsite
  -- The summary of the method has the site, so the layout has registered it.
  have hwait := hwaits site (hcalls decl hdecl stmt hstmt i h.invoke hkind site hsite)
  rw [heq] at hwait
  obtain ⟨v, hv, hn⟩ := h.base
  obtain ⟨n', role, hn', hrole, hmem⟩ := hwait i v h.invoke hv
  cases hn.symm.trans hn'
  exact ⟨role, hrole, hmem⟩

theorem Finished.calleeRecorded (h : Finished p .wholeProgram a) {n o : NodeId} {site : SiteRef}
    (hsite : site ∈ a.pag.sitesOf n) (hrole : ∀ index, site.role ≠ .arg index)
    (ho : o ∈ a.pag.ptsOf n) : CalleeRecorded p a.builder site.stmt o :=
  (h.looked hsite ho).calleeRecorded hrole

/-- Every callee with a body that an object tells is recorded as called. -/
theorem receivers_dispatched (h : Completes p seed entries c a) (hscale : c.scale = .wholeProgram)
    {cid : ContextId} {f : FuncId} {stmt : StmtId} {i : Invoke} {n o : NodeId} {t : MethodSig}
    {fn : Option FunctionObject} (hcall : a.DynamicCall p cid f stmt i n)
    (ho : o ∈ a.pag.ptsOf n) (ht : p.resolve? a.pag i o = some (t, fn))
    (hbody : p.hasBody t = true) : ∃ g e, a.builder.graph.methodOf? g = some t ∧
      a.builder.graph.edge? f g = some e ∧ stmt ∈ e.indirect := by
  have hdone := h.finished
  rw [hscale] at hdone
  have hsound := hdone.valid.grounded.sound
  obtain ⟨role, hrole, hsite⟩ := hcall.waits hdone.callsWait hsound
  obtain ⟨st, -, hst, hf, -⟩ := hcall.ofMethod
  obtain ⟨f', g, hf', hg, e, he, hmem⟩ :=
    hdone.calleeRecorded hsite hrole ho i st t fn hcall.invoke hst ht hbody
  -- The caller has one node only.
  cases hsound.graph.distinct hf hf'
  exact ⟨g, e, hg, he, hmem⟩

open Sample

/-- The statement 2 of `callInto` calls through the node 3, which has the function object 2. -/
theorem receivers_dispatched_callInto : ∃ i t fn,
    (result callInto).DynamicCall callInto 0 0 2 i 3 ∧ 2 ∈ (result callInto).pag.ptsOf 3 ∧
      callInto.resolve? (result callInto).pag i 2 = some (t, fn) ∧
      ∃ g e, (result callInto).builder.graph.methodOf? g = some t ∧
        (result callInto).builder.graph.edge? 0 g = some e ∧ 2 ∈ e.indirect := by
  let f : MethodSig := ⟨main.owner, "f"⟩
  let i : Invoke := { kind := .pointer, method := f, base := some 1, args := [] }
  let st : Stmt := ⟨main, .assign 4 5⟩
  obtain ⟨hok, hbuilt, hst, hmain, ⟨decl, hdecl, hstmt⟩, hi, hsite, hn, ho, ht, hbody⟩ :
      (run callInto).1.isOk = true ∧ (0, 0) ∈ (result callInto).builder.built ∧
      callInto.stmt? 2 = some st ∧ (result callInto).builder.graph.methodOf? 0 = some main ∧
      (∃ decl ∈ callInto.method? main, 2 ∈ decl.stmts) ∧ callInto.invokeOf? 2 = some i ∧
      ((result callInto).builder.graph.dynSiteAt? 2).isSome = true ∧
      Build.nodeIn? (result callInto).pag 0 (Build.entityOf callInto 1) = some 3 ∧
      2 ∈ (result callInto).pag.ptsOf 3 ∧
      callInto.resolve? (result callInto).pag i 2 = some (f, some { method := f, func := some 1 }) ∧
      callInto.hasBody f = true := by
    decide +kernel
  have hcall : (result callInto).DynamicCall callInto 0 0 2 i 3 :=
    ⟨hbuilt, ⟨st, decl, hst, hmain, hdecl, hstmt⟩, hi, Or.inr rfl, hsite, ⟨1, rfl, hn⟩⟩
  exact ⟨i, f, _, hcall, ho, ht,
    receivers_dispatched (completes_result hok) rfl hcall ho ht hbody⟩

end PointsTo.Analysis
