import PointsTo.Proofs.Actions.Callbacks
import PointsTo.Proofs.Analysis.Binding
import PointsTo.Proofs.Analysis.Dispatch
import PointsTo.Proofs.Analysis.Meetings
import PointsTo.Proofs.CallGraph.Seeds

/-!
# Callbacks of containers, in any order

A call like `a.forEach(f)` waits for containers at its receiver and, as soon as one has come, for
functions at its argument. If a container and a function have reached it in the end, the call was
looked at for one of them when the other one was there, whichever came first and in whatever round
(`Completes.meet`). So the function was called on the elements of the container
(`callbacks_see_elements`).
-/

namespace PointsTo

open Builder (Actions CallContext)
open Build

namespace Program

variable {p : Program}

theorem name_of_findMethod? {c : ClassSig} {name : String} {m : MethodSig}
    (h : p.findMethod? c name = some m) : m.name = name := by
  obtain ⟨d, -, hd⟩ := List.exists_of_findSome?_eq_some h
  obtain ⟨decl, -, hm⟩ := Option.bind_eq_some_iff.1 hd
  simpa using List.find?_some hm

/-- What an object tells about a call on a receiver has the name that is called. -/
theorem name_of_resolve? {g : Pag} {i : Invoke} {obj : NodeId} {m : MethodSig}
    {fn : Option FunctionObject} (hkind : i.kind = .member)
    (h : p.resolve? g i obj = some (m, fn)) : m.name = i.method.name := by
  unfold resolve? at h
  rw [hkind] at h
  split at h
  · rename_i hpointer _
    cases hpointer
  · dsimp only at h
    obtain ⟨m', hm', heq⟩ := Option.map_eq_some_iff.1 h
    cases heq
    split at hm'
    · exact name_of_findMethod? hm'
    · split at hm'
      · rcases Option.or_eq_some_iff.1 hm' with hm' | ⟨-, hm'⟩
        · exact name_of_findMethod? hm'
        · exact name_of_findMethod? hm'
      · exact name_of_findMethod? hm'
  · cases h

end Program

namespace Analysis

variable {s : Setting} {p : Program} {a a' : Analysis} {b b' b₀ : Builder} {c : ModelCall}
  {receiver callback : ValueId} {n m o x g : NodeId} {fn : FunctionObject} {role : SiteRole}
  {cid : ContextId} {stmt : StmtId} {i : Invoke} {t : MethodSig}

/-! ## What the models do -/

section Models

variable (hs : s.IsStandard) (hc : c.IsVisit s.program receiver callback)
include hs hc

/-- What the model of containers has done stays done by the models that are asked after it. -/
theorem runModels_visits {Q : Builder → Prop}
    (stable : ∀ {b₁ b₂ : Builder}, b₁.Extends b₂ → Q b₁ → Q b₂)
    (hrun : TrySpec (Actions s.program)
      (Library.Container.model.onObject s.program Build.enqueue c role o) b fun _ => Q) :
    TrySpec (Actions s.program) (runModels s c role o) b fun _ => Q :=
  (runModels_spec hs stable (hc.runOnObject stable hrun)).mono fun _ _ _ h => h.1

theorem leaveToModels_visits (ho : a.pag.isContainer o = true)
    (hrole : ∀ index, role ≠ .arg index) :
    TrySpec (OnBuilder (Actions s.program)) (leaveToModels s c role o) a fun _ a' =>
      c.FindsFunctions s.program callback a.builder a'.builder o := by
  have hmodels := runModels_visits hs hc (fun h hfinds => hfinds.mono .rfl h)
    (Library.Container.onObject_container hc ho hrole)
  refine .bind (build_onBuilder hmodels) fun handled a₁ _ hfinds => ?_
  split
  · refine .bind (build_onBuilder (.lift addUnhandled_actions.spec)) fun _ a₂ h₂ _ => ?_
    exact .pure (hfinds.mono .rfl (Actions.extends h₂))
  · exact .pure hfinds

/-- A container that does not tell a method with a body leaves the call to the models. -/
theorem receiverCall_visits (hkind : c.invoke.kind = .member) (ho : a.pag.isContainer o = true)
    (hno : ∀ m fn, s.program.resolve? a.pag c.invoke o = some (m, fn) →
      s.program.hasBody m = false) (hrole : ∀ index, role ≠ .arg index) :
    TrySpec (OnBuilder (Actions s.program)) (receiverCall s c n role o) a fun _ a' =>
      c.FindsFunctions s.program callback a.builder a'.builder o := by
  have hleave :
    ∀ {callee}, callee.name = c.invoke.method.name → TrySpec (OnBuilder (Actions s.program))
      (leaveToModels s { c with callee } role o) a fun _ a' =>
      c.FindsFunctions s.program callback a.builder a'.builder o := by
    intro callee hname
    have hc' : ({ c with callee } : ModelCall).IsVisit s.program receiver callback :=
      { hc with callee := hname, ofProgram := ⟨hc.ofProgram.invoke, hc.ofProgram.result⟩ }
    exact (leaveToModels_visits hs hc' ho hrole).mono fun _ _ _ h => h.of_callee
  refine .get_bind ?_
  split
  · rename_i m fn hres
    rw [if_neg (by simp [hno m fn hres])]
    exact .discard (hleave (Program.name_of_resolve? hkind hres))
  · refine .bind (hleave hc.callee) fun taken a₁ _ hfinds => ?_
    split
    · have hwatch : GuaranteesOn .all (Actions s.program)
          (c.positions.forM fun index => (watchArg s.program c index : Build Unit) :
            TryBuild Unit) := .forM fun _ _ => .lift watchArg_actions
      refine (build_onBuilder hwatch.spec).mono fun _ a₂ h₂ _ => ?_
      exact hfinds.mono .rfl (Actions.extends h₂)
    · exact .pure hfinds

/-- Whether or not there are containers, what was done for them stays done. -/
theorem lookAs_visits (h : a.builder.HasFunctionObject g fn)
    (hbody : s.program.hasBody fn.method = true) :
    TrySpec (OnBuilder (Actions s.program)) (lookAs s c n g (.arg 0)) a fun _ a' =>
      c.FindsContainers s.program receiver a.builder a'.builder g fn := by
  have hmodels := runModels_visits hs hc (fun h hfinds => hfinds.mono .rfl h)
    (Library.Container.onObject_function hc h hbody)
  refine .bind (build_onBuilder hmodels) fun taken a₁ _ hfinds => ?_
  split
  · have hback : GuaranteesOn .all (OnBuilder (Actions s.program)) (callBack s c g) :=
      callBack_lifted onBuilder_lifts (analysisGuarantees_actions hs.byActions).look
    exact hback.spec.mono fun _ a₂ h₂ _ => hfinds.mono .rfl (Actions.extends h₂)
  · exact .pure hfinds

end Models

/-! ## Calls that are looked at -/

theorem IsCallAt.mono (h : IsCallAt p b stmt i t cid c) (hb : b.Extends b') :
    IsCallAt p b' stmt i t cid c := by
  refine { h with caller := hb.graph.method h.caller, site := h.site.trans ?_ }
  unfold siteAt CallGraph.dynSiteAt? CallGraph.sitesAt
  rw [hb.graph.sites, hb.graph.dynSites]

theorem IsCallAt.isVisit (h : IsCallAt p b stmt i t cid c)
    (hmethod : i.method.name ∈ Library.Container.visitors) (hbase : i.base = some receiver)
    (harg : i.args[0]? = some callback) (hlocal : p.isLocal callback = true) :
    c.IsVisit p receiver callback where
  ofProgram := h.ofProgram
  method := h.invoke ▸ hmethod
  callee := by rw [h.callee, h.invoke]
  receiver := h.invoke ▸ hbase
  callback := by simp [ModelCall.localArg?, h.invoke, harg, hlocal]

/-- The call was looked at for the object `o`, and the builder was `b₀` before and is `b` now. -/
structure LookedAt (p : Program) (b : Builder) (n o : NodeId) (role : SiteRole) (c : ModelCall)
    (b₀ : Builder) : Prop where
  rooted : b₀.Rooted
  sound : b₀.Sound p
  lt : o < b₀.pag.nodes.size
  extended : b₀.Extends b
  run : ∃ (s : Setting) (a a' : Analysis), s.program = p ∧ s.IsStandard ∧ b₀.Extends a.builder ∧
    (lookAs s c n o role).run.run a = (.ok (), a') ∧ a'.builder.Extends b

theorem LookedWith.lookedAt {site : SiteRef} {st : Stmt} (h : LookedWith p b n site o m x)
    (hi : p.invokeOf? site.stmt = some i) (hst : p.stmt? site.stmt = some st)
    (hcid : (b.pag.node? n).map Node.cid = some cid) :
    ∃ c b₀, IsCallAt p b site.stmt i st.method cid c ∧ LookedAt p b n o site.role c b₀ ∧
      x ∈ b₀.pag.ptsOf m ∧ x < b₀.pag.nodes.size := by
  obtain ⟨s, a, a', rfl, hs, ha, -, hroot, ho, hx, hrun, hb⟩ := h.run
  obtain ⟨c, cid', a₁, hcid', hcall, h₁, hlook⟩ := processSite_looks hi hst hrun
  have hbuilder : GuaranteesOn .all (OnBuilder (Actions s.program)) (lookAs s c n o site.role) :=
    lookAs_lifted onBuilder_lifts (analysisGuarantees_actions hs.byActions).look hcall.ofProgram
  have h₂ := (Actions.extends (hbuilder.spec.of_run hlook).1).trans hb
  have h₀ := h₁.trans h₂
  cases (h₀.pag.cid hcid').symm.trans hcid
  exact ⟨c, a.builder, hcall.mono h₂,
    ⟨hroot, ha.sound, ho, h₀, s, a₁, a', rfl, hs, h₁, hlook, hb⟩, hx, ha.lt_of_mem_ptsOf hx⟩

theorem LookedAt.findsFunctions (h : LookedAt p b n o role c b₀)
    (hc : c.IsVisit p receiver callback)
    (hkind : c.invoke.kind = .member) (hrole : ∀ index, role ≠ .arg index)
    (ho : b.pag.isContainer o = true) (hno : ∀ m fn, p.resolve? b.pag c.invoke o = some (m, fn) →
      p.hasBody m = false) : c.FindsFunctions p callback b₀ b o := by
  obtain ⟨s, a, a', rfl, hs, h₁, hlook, h₂⟩ := h.run
  have hlt := h₁.pag.lt h.lt
  rw [lookAs_of_ne_arg hrole] at hlook
  -- What the object is, and what it tells, has not changed since.
  have hactions : GuaranteesOn .all (OnBuilder (Actions s.program)) (receiverCall s c n role o) :=
    receiverCall_lifted onBuilder_lifts (analysisGuarantees_actions hs.byActions).look hc.ofProgram
  have hg := ((Actions.extends (hactions.spec.of_run hlook).1).trans h₂).pag
  have ho₁ : a.pag.isContainer o = true := (hg.isContainer hlt).symm.trans ho
  have hno₁ : ∀ m fn, s.program.resolve? a.pag c.invoke o = some (m, fn) →
      s.program.hasBody m = false := fun m fn hres =>
    hno m fn ((resolve?_congr hg hlt c.invoke).trans hres)
  exact ((receiverCall_visits hs hc hkind ho₁ hno₁ hrole).of_run hlook).2.mono h₁ h₂

theorem LookedAt.findsContainers (h : LookedAt p b n g (.arg 0) c b₀)
    (hc : c.IsVisit p receiver callback) (hfn : b.pag.function? g = some fn)
    (hbody : p.hasBody fn.method = true) : c.FindsContainers p receiver b₀ b g fn := by
  obtain ⟨s, a, a', rfl, hs, h₁, hlook, h₂⟩ := h.run
  have hfn₀ := (Pag.function?_congr h.extended.pag h.lt).symm.trans hfn
  have hholds := (h.sound.holds hfn₀).mono h₁
  exact ((lookAs_visits hs hc hholds hbody).of_run hlook).2.mono h₁ h₂

theorem LookedAt.extends_blank (h : LookedAt p b n o role c b₀) :
    b.blank.contexts.Extends b₀.contexts := by
  rw [h.extended.blank_contexts]
  exact h.rooted

/-! ## Calls of methods that visit elements -/

/-- The statement is a call of a method that visits the elements of its receiver. It stands in a
method `f` that was laid out in the context `cid`. The receiver is a local, with the node `r` there,
and so is the first argument, with the node `n`. -/
structure VisitorCall (p : Program) (a : Analysis) (cid : ContextId) (f : FuncId) (stmt : StmtId)
    (i : Invoke) (r n : NodeId) : Prop where
  laidOut : (cid, f) ∈ a.builder.built
  ofMethod : ∃ st decl, p.stmt? stmt = some st ∧ a.builder.graph.methodOf? f = some st.method ∧
    p.method? st.method = some decl ∧ stmt ∈ decl.stmts
  invoke : p.invokeOf? stmt = some i
  kind : i.kind = .member
  name : i.method.name ∈ Library.Container.visitors
  receiver : ∃ v, i.base = some v ∧ p.isLocal v = true ∧ nodeIn? a.pag cid (.value v) = some r
  callback : ∃ w, i.args[0]? = some w ∧ p.isLocal w = true ∧ nodeIn? a.pag cid (.value w) = some n

variable {seed : Seed} {entries : List MethodSig} {config : Config} {f : FuncId} {r : NodeId}

theorem Completes.grows (h : Completes p seed entries config a) :
    (seed.graph p entries).Grows a.builder.graph := by
  obtain ⟨fuel, hrun⟩ := h.solved
  let s : Setting := { program := p, models := LibraryModel.standard, fuel }
  have hs : s.IsStandard := rfl
  exact (Actions.extends ((solve_actions hs.byActions).spec.of_run hrun).1).graph

theorem VisitorCall.dynamic (hcall : a.VisitorCall p cid f stmt i r n)
    (h : Completes p seed entries config a) : a.DynamicCall p cid f stmt i r where
  laidOut := hcall.laidOut
  ofMethod := hcall.ofMethod
  invoke := hcall.invoke
  kind := Or.inl hcall.kind
  site := by
    obtain ⟨st, decl, -, -, hdecl, hstmt⟩ := hcall.ofMethod
    have hnamed : i.kind ≠ .named := by simp [hcall.kind]
    exact CallGraph.KeepsDynamic.of_dynSites h.grows.dynSites
      (seed.graph_dynamic entries hdecl hstmt hcall.invoke hnamed)
  base := by
    obtain ⟨v, hv, hlocal, hr⟩ := hcall.receiver
    exact ⟨v, hv, by rw [Program.entityOf_of_isLocal hlocal, hr]⟩

/-- The node of a local is in the context that it was looked up in. -/
theorem cid_of_nodeIn? {v : ValueId} {pag : Pag} (h : nodeIn? pag cid (.value v) = some n) :
    (pag.node? n).map Node.cid = some cid := by
  obtain ⟨⟨node, hnode, hcid, -⟩, -⟩ := Pag.find?_eq_some_iff.1 h
  exact Option.map_eq_some_iff.2 ⟨node, hnode, hcid⟩

/-! ## Whichever comes first -/

namespace VisitorCall

variable (hcall : a.VisitorCall p cid f stmt i r n)
include hcall

theorem isVisit (hc : IsCallAt p b stmt i t cid c) : ∃ v w, c.IsVisit p v w ∧
    nodeIn? a.pag cid (entityOf p v) = some r ∧ nodeIn? a.pag cid (entityOf p w) = some n := by
  obtain ⟨v, hv, hvlocal, hr⟩ := hcall.receiver
  obtain ⟨w, hw, hwlocal, hn⟩ := hcall.callback
  refine ⟨v, w, hc.isVisit hcall.name hv hw hwlocal, ?_, ?_⟩
  · rw [Program.entityOf_of_isLocal hvlocal, hr]
  · rw [Program.entityOf_of_isLocal hwlocal, hn]

/-- A container was looked at: the argument is watched, and the functions that were there visited
the container. -/
theorem findsFunctions (hc : IsCallAt p a.builder stmt i t cid c)
    (h : LookedAt p a.builder r o role c b₀) (hrole : ∀ index, role ≠ .arg index)
    (ho : a.pag.isContainer o = true)
    (hno : ∀ m fn, p.resolve? a.pag i o = some (m, fn) → p.hasBody m = false) :
    ⟨stmt, .arg 0⟩ ∈ a.pag.sitesOf n ∧ ∀ {g fn}, b₀.HasFunctionObject g fn →
    p.hasBody fn.method = true →
      g ∈ b₀.pag.ptsOf n → c.Visits p b₀ a.builder o g fn := by
  obtain ⟨v, w, hvisit, -, hn⟩ := hcall.isVisit hc
  have hkind : c.invoke.kind = .member := hc.invoke ▸ hcall.kind
  obtain ⟨n', hn', hwatched, hvisits⟩ := h.findsFunctions hvisit hkind hrole ho (hc.invoke ▸ hno)
  rw [hc.callerCid] at hn'
  cases hn.symm.trans hn'
  exact ⟨hc.ofStmt ▸ hwatched, hvisits⟩

/-- A function was looked at: it visited the containers that were there. -/
theorem findsContainers (hc : IsCallAt p a.builder stmt i t cid c)
    (h : LookedAt p a.builder n g (.arg 0) c b₀) (hfn : a.pag.function? g = some fn)
    (hbody : p.hasBody fn.method = true) (ho : b₀.pag.isContainer o = true)
    (hmem : o ∈ b₀.pag.ptsOf r) : c.Visits p b₀ a.builder o g fn := by
  obtain ⟨v, w, hvisit, hr, -⟩ := hcall.isVisit hc
  obtain ⟨r', hr', hvisits⟩ := h.findsContainers hvisit hfn hbody
  rw [hc.callerCid] at hr'
  cases hr.symm.trans hr'
  exact hvisits ho hmem

theorem cid_receiver : (a.pag.node? r).map Node.cid = some cid := by
  obtain ⟨v, -, -, hr⟩ := hcall.receiver
  exact cid_of_nodeIn? hr

theorem cid_callback : (a.pag.node? n).map Node.cid = some cid := by
  obtain ⟨w, -, -, hn⟩ := hcall.callback
  exact cid_of_nodeIn? hn

/-- The function object was called on the elements of the container, when one of them had reached
the call and the other one was there. -/
theorem visited (h : Completes p seed entries config a) (hscale : config.scale = .wholeProgram)
    (ho : o ∈ a.pag.ptsOf r) (hcontainer : a.pag.isContainer o = true)
    (hno : ∀ m fn, p.resolve? a.pag i o = some (m, fn) → p.hasBody m = false)
    (hg : g ∈ a.pag.ptsOf n) (hfn : a.pag.function? g = some fn)
    (hbody : p.hasBody fn.method = true) : ∃ t c, a.builder.graph.methodOf? f = some t ∧
      IsCallAt p a.builder stmt i t cid c ∧ c.Visits p a.builder.blank a.builder o g fn := by
  have hfinished := h.finished
  rw [hscale] at hfinished
  obtain ⟨st, -, hst, hf, -⟩ := hcall.ofMethod
  obtain ⟨role, hrole, hsite⟩ := (hcall.dynamic h).waits hfinished.callsWait
    hfinished.valid.grounded.sound
  have hwaits : a.Waits r ⟨stmt, role⟩ o := ⟨hsite, ho⟩
  have hwaits' : a.Waits n ⟨stmt, .arg 0⟩ g := by
    have hlooked := or_self_iff.1 (h.meet hscale hwaits hwaits)
    obtain ⟨c, b₀, hc, hsight, -⟩ := hlooked.lookedAt hcall.invoke hst hcall.cid_receiver
    exact ⟨(hcall.findsFunctions hc hsight hrole hcontainer hno).1, hg⟩
  rcases h.meet hscale hwaits hwaits' with hlooked | hlooked
  · -- The function was there when the container was looked at.
    obtain ⟨c, b₀, hc, hsight, hg₀, hlt⟩ :=
      hlooked.lookedAt hcall.invoke hst hcall.cid_receiver
    have hfn₀ := (Pag.function?_congr hsight.extended.pag hlt).symm.trans hfn
    have hvisits := (hcall.findsFunctions hc hsight hrole hcontainer hno).2
      (hsight.sound.holds hfn₀) hbody hg₀
    exact ⟨st.method, c, hf, hc, hvisits.mono hsight.extends_blank .rfl⟩
  · -- The container was there when the function was looked at.
    obtain ⟨c, b₀, hc, hsight, ho₀, hlt⟩ :=
      hlooked.lookedAt hcall.invoke hst hcall.cid_callback
    have hcontainer₀ := (hsight.extended.pag.isContainer hlt).symm.trans hcontainer
    have hvisits := hcall.findsContainers hc hsight hfn hbody hcontainer₀ ho₀
    exact ⟨st.method, c, hf, hc, hvisits.mono hsight.extends_blank .rfl⟩

end VisitorCall

/-- **Callbacks see every element.** When an analysis of the whole program completes, every function
object at the argument of such a call was called on the elements of every container at the receiver,
unless the container tells a method with a body: the call is recorded, and what is in the container
is copied to the parameter that comes after the arguments that are fixed. -/
theorem callbacks_see_elements (h : Completes p seed entries config a)
    (hscale : config.scale = .wholeProgram) (hcall : a.VisitorCall p cid f stmt i r n)
    (ho : o ∈ a.pag.ptsOf r) (hcontainer : a.pag.isContainer o = true)
    (hno : ∀ m fn, p.resolve? a.pag i o = some (m, fn) → p.hasBody m = false)
    (hg : g ∈ a.pag.ptsOf n) (hfn : a.pag.function? g = some fn)
    (hbody : p.hasBody fn.method = true) : ∃ callee elem inner,
      a.builder.graph.methodOf? callee = some fn.method ∧
      a.builder.graph.Calls f callee .indirect stmt ∧ a.pag.fieldNode? o .element = some elem ∧
      CallContext a.builder.blank a.builder cid (siteAt a.builder.graph stmt) (some g) callee
        inner ∧
      p.Gets a.pag fn.method inner (elem, fn.argOffset) := by
  obtain ⟨t, c, hf, hc, hvisits⟩ := hcall.visited h hscale ho hcontainer hno hg hfn hbody
  obtain ⟨callee, elem, inner, hm, hcalls, helem, hcontext, hgets⟩ := hvisits.called
  -- The caller has one node only.
  cases h.finished.valid.grounded.sound.graph.distinct hf hc.caller
  rw [hc.ofStmt] at hcalls
  rw [hc.callerCid, hc.site] at hcontext
  exact ⟨callee, elem, inner, hm, hcalls, helem, hcontext, hgets⟩

namespace Sample

open Program

/-- `xs = []; x = new Object; xs.push(x); xs.forEach(g); g = f`, where `f` has a parameter. -/
def visiting : Program :=
  let (f, p) := (addFile {} file false).2.addFunction file "f"
  let d := p.openBody main
  let (xs, d) := d.localVar "xs" .any
  let (x, d) := d.localVar "x" .any
  let (g, d) := d.localVar "g" .any
  let (_, d) := d.assignNew xs (.newArray .any)
  let (_, d) := d.assignNew x (.newObject (.builtin "Object"))
  let (_, d) := d.call none
    { kind := .member, method := ⟨.builtin "Array", "push"⟩, base := some xs, args := [x] }
  let (_, d) := d.call none
    { kind := .member, method := ⟨.builtin "Array", "forEach"⟩, base := some xs, args := [g] }
  let (_, d) := d.assignNew g (.functionRef f)
  ((d.close.openBody f).param 0 "q" .any).2.close

end Sample

open Sample

/-- In `visiting`, the call of `forEach` is the statement 3. The array 0 has reached its receiver,
the node 1, and the function object 4 its argument, the node 5. -/
theorem callbacks_see_elements_visiting : ∃ i fn,
    (result visiting).VisitorCall visiting 0 0 3 i 1 5 ∧ 0 ∈ (result visiting).pag.ptsOf 1 ∧
      (result visiting).pag.isContainer 0 = true ∧
      visiting.resolve? (result visiting).pag i 0 = none ∧ 4 ∈ (result visiting).pag.ptsOf 5 ∧
      (result visiting).pag.function? 4 = some fn ∧ visiting.hasBody fn.method = true ∧
      ∃ callee elem inner, (result visiting).builder.graph.methodOf? callee = some fn.method ∧
        (result visiting).builder.graph.Calls 0 callee .indirect 3 ∧
        (result visiting).pag.fieldNode? 0 .element = some elem ∧
        CallContext (result visiting).builder.blank (result visiting).builder 0
          (siteAt (result visiting).builder.graph 3) (some 4) callee inner ∧
        visiting.Gets (result visiting).pag fn.method inner (elem, fn.argOffset) := by
  let i : Invoke :=
    { kind := .member, method := ⟨.builtin "Array", "forEach"⟩, base := some 0, args := [2] }
  let fn : FunctionObject := { method := ⟨main.owner, "f"⟩, func := some 1 }
  let st : Stmt := ⟨main, .invoke 6⟩
  obtain ⟨hok, hbuilt, hst, hmain, ⟨decl, hdecl, hstmt⟩, hi, hxs, hr, hg, hn, ho, hcontainer, hres,
      hmem, hfn, hbody⟩ :
      (run visiting).1.isOk = true ∧ (0, 0) ∈ (result visiting).builder.built ∧
      visiting.stmt? 3 = some st ∧ (result visiting).builder.graph.methodOf? 0 = some main ∧
      (∃ decl ∈ visiting.method? main, 3 ∈ decl.stmts) ∧ visiting.invokeOf? 3 = some i ∧
      visiting.isLocal 0 = true ∧ nodeIn? (result visiting).pag 0 (.value 0) = some 1 ∧
      visiting.isLocal 2 = true ∧ nodeIn? (result visiting).pag 0 (.value 2) = some 5 ∧
      0 ∈ (result visiting).pag.ptsOf 1 ∧ (result visiting).pag.isContainer 0 = true ∧
      visiting.resolve? (result visiting).pag i 0 = none ∧ 4 ∈ (result visiting).pag.ptsOf 5 ∧
      (result visiting).pag.function? 4 = some fn ∧ visiting.hasBody fn.method = true := by
    decide +kernel
  have hcall : (result visiting).VisitorCall visiting 0 0 3 i 1 5 :=
    ⟨hbuilt, ⟨st, decl, hst, hmain, hdecl, hstmt⟩, hi, rfl, by decide, ⟨0, rfl, hxs, hr⟩,
      ⟨2, rfl, hg, hn⟩⟩
  have hno : ∀ m fn, visiting.resolve? (result visiting).pag i 0 = some (m, fn) →
      visiting.hasBody m = false := by
    rw [hres]
    exact nofun
  exact ⟨i, fn, hcall, ho, hcontainer, hres, hmem, hfn, hbody,
    callbacks_see_elements (completes_result hok) rfl hcall ho hcontainer hno hmem hfn hbody⟩

end Analysis

end PointsTo
