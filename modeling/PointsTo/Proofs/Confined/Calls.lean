import PointsTo.Proofs.Confined.Builder
import PointsTo.Proofs.Fuel

/-!
# Summaries and calls keep a builder confined

A summary is made of entities that the program names and of calls that the call graph has
(`Summarize.method_confined`). A call is connected in a context that there is, and asks for a method
that there is (`Build.connect_terminates`).
-/

namespace PointsTo

variable {p : Program} {g : CallGraph}

/-! ## Summaries -/

namespace Summary.Confined

variable {s : Summary} (h : s.Confined p g)
include h

theorem addEdge {kind : EdgeKind} {src dst : Entity} {stmt : StmtId} (hs : p.Names src)
    (hd : p.Names dst) (hstmt : stmt < p.stmts.size) :
    (s.addEdge kind src dst stmt).Confined p g := by
  refine { h with edges := fun e he => ?_ }
  rcases List.mem_append.1 he with he | he
  · exact h.edges e he
  · cases List.mem_singleton.1 he
    exact ⟨hs, hd, hstmt⟩

theorem addStaticCalls {sites : List CallSite} (hsites : ∀ site ∈ sites, site ∈ g.sites) :
    (sites.foldl Summary.addStaticCall s).Confined p g := by
  induction sites generalizing s with
  | nil => exact h
  | cons site sites ih =>
    refine ih { h with staticCalls := fun site' hsite' => ?_ } fun _ hx =>
      hsites _ (List.mem_cons_of_mem _ hx)
    rcases List.mem_append.1 hsite' with hsite' | hsite'
    · exact h.staticCalls site' hsite'
    · exact List.mem_singleton.1 hsite' ▸ hsites site List.mem_cons_self

theorem addDynamicCall {site : DynCallSite} (hsite : site ∈ g.dynSites) :
    (s.addDynamicCall site).Confined p g := by
  refine { h with dynamicCalls := fun site' hsite' => ?_ }
  rcases List.mem_append.1 hsite' with hsite' | hsite'
  · exact h.dynamicCalls site' hsite'
  · exact List.mem_singleton.1 hsite' ▸ hsite

theorem addUnknownCall {site : DynCallSite} (hsite : site ∈ g.dynSites) :
    (s.addUnknownCall site).Confined p g := by
  refine { h with unknownCalls := fun site' hsite' => ?_ }
  rcases List.mem_append.1 hsite' with hsite' | hsite'
  · exact h.unknownCalls site' hsite'
  · exact List.mem_singleton.1 hsite' ▸ hsite

theorem addReturn {v : ValueId} (hv : p.isLocal v = true) : (s.addReturn v).Confined p g := by
  unfold Summary.addReturn
  split
  · exact h
  · refine { h with returns := fun w hw => ?_ }
    rcases List.mem_append.1 hw with hw | hw
    · exact h.returns w hw
    · exact List.mem_singleton.1 hw ▸ hv

theorem addFree {free : List FreeLocal}
    (hfree : ∀ f ∈ free, ∃ v, Summarize.freeLocal? p v = some f) :
    (free.foldl Summary.addFree s).Confined p g := by
  induction free generalizing s with
  | nil => exact h
  | cons f free ih =>
    refine ih ?_ fun _ hx => hfree _ (List.mem_cons_of_mem _ hx)
    unfold Summary.addFree
    split
    · exact h
    · refine { h with free := fun f' hf' => ?_ }
      rcases List.mem_append.1 hf' with hf' | hf'
      · exact h.free f' hf'
      · exact List.mem_singleton.1 hf' ▸ hfree f List.mem_cons_self

end Summary.Confined

/-- A summary in the making is made of what the program has. -/
structure Summarizer.Confined (p : Program) (g : CallGraph) (s : Summarizer) : Prop where
  summary : s.summary.Confined p g
  refs : ∀ r ∈ s.refs, p.Mentions r.1.1 ∧ p.Mentions r.2

/-- What comes of a summary that is made of what the program has is so too. -/
def Summarizer.KeepsConfined (p : Program) (g : CallGraph) (s s' : Summarizer) : Prop :=
  s.Confined p g → s'.Confined p g

instance : IsPreorder Summarizer (Summarizer.KeepsConfined p g) where
  refl _ := id
  trans _ _ _ h h' hs := h' (h hs)

namespace Summarize

open Summarizer (Confined KeepsConfined)

variable {s : Summarizer}

theorem change_terminates {f : Summary → Summary}
    (hf : s.summary.Confined p g → (f s.summary).Confined p g) :
    TryTerminates p.IsMisplaced (KeepsConfined p g) (change f) s fun _ _ => True :=
  .modify (fun h => ⟨hf h.summary, h.refs⟩) trivial

theorem addEdge_terminates {kind : EdgeKind} {src dst : Entity} {stmt : StmtId} (hs : p.Names src)
    (hd : p.Names dst) (hstmt : stmt < p.stmts.size) :
    TryTerminates p.IsMisplaced (KeepsConfined p g)
      (change fun s => s.addEdge kind src dst stmt) s
      fun _ _ => True :=
  change_terminates fun h => h.addEdge hs hd hstmt

theorem canonical_terminates (h : Confined p g s) {base access : ValueId} {key : FieldKey}
    (hb : p.Mentions base) (ha : p.Mentions access) :
    TryTerminates p.IsMisplaced (KeepsConfined p g) (canonical base key access) s fun e _ =>
      p.Names e := by
  unfold canonical
  refine .get_bind ?_
  split
  · rename_i ref href
    obtain ⟨l₁, l₂, hl, -⟩ := List.lookup_eq_some_iff.1 href
    exact .pure (h.refs ((base, key), ref) (by simp [hl])).2
  · refine .modify_bind (fun h => { h with refs := fun r hr => ?_ }) (.pure ha)
    rcases List.mem_append.1 hr with hr | hr
    · exact h.refs r hr
    · cases List.mem_singleton.1 hr
      exact ⟨hb, ha⟩

theorem reading_terminates (h : Confined p g s) {right : ValueId} :
    TryTerminates p.IsMisplaced (KeepsConfined p g) (reading p right) s fun move _ =>
      ∀ kind src, move = some (kind, src) → p.Names src := by
  unfold reading
  cases hv : p.value? right with
  | none => exact .pure (by rintro _ _ ⟨⟩)
  | some value =>
    have hright : p.Mentions right := Program.mentions_of_value? hv
    cases value with
    | newObject | newArray | functionRef | globalThis | localVar | param | thisRef | captured
    | staticRef =>
      refine .pure ?_
      rintro _ _ ⟨⟩
      exact Program.names_entityOf hright
    | cast op =>
      refine .pure fun kind src hmove => ?_
      split at hmove
      · rename_i hlocal
        cases hmove
        exact Program.mentions_of_isLocal hlocal
      · cases hmove
    | fieldRef | elementRef =>
      have hbase := Program.mentions_of_base? hv rfl
      refine .bind (canonical_terminates h hbase hright) fun e s₁ _ he => .pure ?_
      rintro _ _ ⟨⟩
      exact he
    | constant | compute | invoke => exact .pure (by rintro _ _ ⟨⟩)

theorem assign_terminates (h : Confined p g s) {stmt : StmtId} {left right : ValueId}
    (hstmt : (p.stmt? stmt).map Stmt.kind = some (.assign left right))
    (hright : (p.value? right).bind Value.invoke? = none) :
    TryTerminates p.IsMisplaced (KeepsConfined p g) (assign p stmt left right) s
      fun _ _ => True := by
  have hlt : stmt < p.stmts.size := by
    obtain ⟨st, hst, -⟩ := Option.map_eq_some_iff.1 hstmt
    exact (Array.getElem?_eq_some_iff.1 hst).1
  have write : ∀ base key, p.Mentions base → p.Mentions left →
      TryTerminates p.IsMisplaced (KeepsConfined p g) (do
        if p.isLocal right then
          let dst ← canonical base key left
          change fun s => s.addEdge .write (.value right) dst stmt) s fun _ _ => True := by
    intro base key hbase hleft
    split
    · rename_i hlocal
      refine .bind (canonical_terminates h hbase hleft) fun e _ _ he => ?_
      exact addEdge_terminates (Program.mentions_of_isLocal hlocal) he hlt
    · exact .pure trivial
  unfold assign
  cases hv : p.value? left with
  | none => exact .pure trivial
  | some value =>
    have hleft : p.Mentions left := Program.mentions_of_value? hv
    cases value with
    | localVar =>
      refine .bind (reading_terminates h) fun move _ _ hmove => ?_
      split
      · exact addEdge_terminates (hmove _ _ rfl) hleft hlt
      · exact .pure trivial
    | fieldRef base field =>
        exact write base (.ofSig field) (Program.mentions_of_base? hv rfl) hleft
    | elementRef base => exact write base .element (Program.mentions_of_base? hv rfl) hleft
    | staticRef field =>
      have hfield : p.Names (.staticField field) := Program.mem_values hv
      dsimp only
      split
      · rename_i hlocal
        exact addEdge_terminates (Program.mentions_of_isLocal hlocal) hfield hlt
      · split
        · rename_i ha
          refine addEdge_terminates (Program.names_entityOf ?_) hfield hlt
          cases hr : p.value? right with
          | none => simp [hr] at ha
          | some x => exact Program.mentions_of_value? hr
        · exact .pure trivial
    | captured => exact .pure trivial
    | constant | newObject | newArray | functionRef | globalThis | param | thisRef | cast | compute
    | invoke => exact .throw nofun ⟨stmt, _, ⟨left, right, hstmt, hright, hv, rfl⟩, rfl⟩

variable {g' : CallGraph}

theorem call_terminates (hg : g.GrownFrom p g') {stmt : StmtId} :
    TryTerminates p.IsMisplaced (KeepsConfined p g) (call p g' stmt) s fun _ _ => True := by
  unfold call
  split
  · exact .pure trivial
  · rename_i site _ hsite
    have hmem : site ∈ g.dynSites := hg.dynSites ▸ Array.mem_of_find?_eq_some hsite
    refine change_terminates fun h => ?_
    split
    · exact h.addDynamicCall hmem
    · exact h.addUnknownCall hmem
  · refine change_terminates fun h => h.addStaticCalls fun site hsite => ?_
    rw [← hg.sites]
    exact Array.mem_toList_iff.1 (List.mem_filter.1 hsite).1

theorem stmt_terminates (hg : g.GrownFrom p g') (h : Confined p g s) {id : StmtId} :
    TryTerminates p.IsMisplaced (KeepsConfined p g) (stmt p g' id) s fun _ _ => True := by
  unfold stmt
  cases hs : p.stmt? id with
  | none => exact .pure trivial
  | some st =>
    obtain ⟨m, kind⟩ := st
    cases kind with
    | assign left right =>
      dsimp only [Option.map_some]
      split
      · exact call_terminates hg
      · rename_i hno
        exact assign_terminates h (by rw [hs]; rfl) (by simpa using hno)
    | invoke expr => exact call_terminates hg
    | ret value =>
      cases value with
      | none => exact .pure trivial
      | some v =>
        dsimp only [Option.map_some]
        split
        · rename_i hlocal
          exact change_terminates fun h => h.addReturn hlocal
        · exact .pure trivial
    | nop => exact .pure trivial

theorem body_terminates (hg : g.GrownFrom p g') {m : MethodDecl} (h : Confined p g s) :
    TryTerminates p.IsMisplaced (KeepsConfined p g) (body p g' m) s fun _ _ => True := by
  have hloop :
    TryTerminates p.IsMisplaced (KeepsConfined p g) (m.stmts.forM (stmt p g')) s fun _ _ => True :=
    .forM_any fun _ _ _ h₁ => stmt_terminates hg (h₁ h)
  refine .seq hloop fun _ _ _ => change_terminates fun h => h.addFree fun f hf => ?_
  obtain ⟨v, -, hv⟩ := List.mem_filterMap.1 hf
  exact ⟨v, hv⟩

/-- Summarising a method fails for a statement that it cannot make sense of only. As far as it goes,
the summary is confined. -/
theorem method_confined (hg : g.GrownFrom p g') (f : FuncId) (m : MethodSig) :
    (∀ {e}, (method p g' f m).1 = .error e → e ≠ .outOfFuel ∧ p.IsMisplaced e) ∧
      (method p g' f m).2.Confined p g := by
  have hstart : Confined p g { summary := { func := f } } := by
    refine ⟨?_, nofun⟩
    constructor <;> simp
  unfold method
  split
  · rename_i decl _
    obtain ⟨hruns, hstarves⟩ := body_terminates (m := decl) hg hstart
    refine ⟨fun {e} he => ?_, hruns.spec.1 hstart⟩
    have hne : e ≠ .outOfFuel := by
      rintro rfl
      exact hstarves he
    exact ⟨hne, (hruns.fails he).resolve_left hne⟩
  · exact ⟨nofun, hstart⟩

/-- A statement that assigns to no place is not made sense of. -/
theorem stmt_of_misplaces {id : StmtId} {v : Value} (h : p.Misplaces id v) :
    (stmt p g' id).run.run s = (.error (.nonLvalue id v), s) := by
  obtain ⟨left, right, hkind, hright, hv, hplace⟩ := h
  unfold stmt
  simp only [hkind, hright, Option.isSome_none]
  show (assign p id left right).run.run s = _
  unfold assign
  rw [hv]
  cases v with
  | localVar | fieldRef | elementRef | staticRef | captured => cases hplace
  | constant | newObject | newArray | functionRef | globalThis | param | thisRef | cast | compute
  | invoke => rfl

/-- So a method that is summarised has no such statement. -/
theorem method_places {f : FuncId} {m : MethodSig} (h : (method p g' f m).1 = .ok ()) :
    p.IsPlaced m := by
  intro decl hdecl
  unfold method at h
  rw [hdecl] at h
  have hloop : ∀ s, TrySpec AnyChange (decl.stmts.forM (stmt p g')) s fun _ _ =>
      ∀ id ∈ decl.stmts, ∀ v, ¬p.Misplaces id v := by
    intro s
    refine .forM (fun _ _ _ _ h => h) fun id _ s' _ => ⟨trivial, fun x hx v hv => ?_⟩
    replace hx : ((stmt p g' id).run.run s').1 = .ok x := hx
    rw [stmt_of_misplaces hv] at hx
    cases hx
  have hbody : TrySpec AnyChange (body p g' decl) { summary := { func := f } } fun _ _ =>
      ∀ id ∈ decl.stmts, ∀ v, ¬p.Misplaces id v :=
    .bind (hloop _) fun _ _ _ hall => .modify trivial hall
  exact hbody.2 () h

end Summarize

/-! ## Calls -/

/-- The call is one of the program, in a context that there is. -/
structure CallBinding.Confined (g : CallGraph) (b : Builder) (c : CallBinding) : Prop where
  site : g.HasId c.site
  caller : b.HasContext c.callerCid
  callee : c.callee < b.graph.nodes.size
  object : ∀ o, c.contextObj = some o → b.pag.isObject o = true
  function : ∀ cid, c.functionCid = some cid → b.HasContext cid

theorem CallBinding.Confined.mono {b b' : Builder} {c : CallBinding} (h : c.Confined g b)
    (hb : b.LogsOnlyNew b') : c.Confined g b' where
  site := h.site
  caller := hb.hasContext h.caller
  callee := hb.func h.callee
  object o ho := hb.pag.isObject (h.object o ho)
  function cid hcid := hb.hasContext (h.function cid hcid)

namespace Build

open Builder (KeepsConfined)

variable {Out : Builder → Prop} {b : Builder} {f : FuncId}

theorem methodOf_terminates (hf : f < b.graph.nodes.size) :
    TryTerminates p.IsMisplaced (KeepsConfined p g) (methodOf f) b fun m b' =>
      b'.graph.methodOf? f = some m := by
  refine .get_bind ?_
  split
  · rename_i m hm
    exact .pure hm
  · rename_i hnone
    simp [CallGraph.methodOf?, CallGraph.node?, hf] at hnone

theorem keepsConfined_baseRefs {refs : List ((ValueId × FieldKey) × ValueId)}
    (hrefs : ∀ r ∈ refs, p.Mentions r.1.1 ∧ p.Mentions r.2) :
    KeepsConfined p g b { b with pag := refs.foldl (fun g r => g.addBaseRef r.1.1 r.2) b.pag } := by
  induction refs generalizing b with
  | nil => exact refl_of (KeepsConfined p g) b
  | cons r refs ih =>
    have hexp : b.LogsOnlyNew { b with pag := b.pag.addBaseRef r.1.1 r.2 } :=
      .of_same (b.pag.addBaseRef_extends r.1.1 r.2) .rfl .rfl rfl rfl rfl
    have hone : KeepsConfined p g b { b with pag := b.pag.addBaseRef r.1.1 r.2 } := by
      obtain ⟨hbase, href⟩ := hrefs r List.mem_cons_self
      refine ⟨fun hb => ?_, hexp⟩
      refine hb.grow hexp (hb.pag.addBaseRef hbase href) (fun hx => Or.inl ?_)
        (hb.properItems hexp) hb.graph Or.inl Or.inl Or.inl Or.inl (fun he => Or.inl he)
        fun hs => Or.inl hs
      rw [Pag.node?_congr (b.pag.nodes_addBaseRef _ _)] at hx
      exact Pag.node?_lt hx
    exact trans_of (KeepsConfined p g) hone (ih fun r' hr' => hrefs r' (List.mem_cons_of_mem _ hr'))

theorem summarize_terminates (hb : b.Confined p g) (hf : f < b.graph.nodes.size) :
    TryTerminates p.IsMisplaced (KeepsConfined p g) (summarize p f) b fun _ _ => True := by
  unfold summarize
  refine .get_bind ?_
  dsimp only
  split
  · exact .pure trivial
  · refine .bind (methodOf_terminates hf) fun m b₁ h₁ hm => .get_bind ?_
    obtain ⟨hfails, hsummary⟩ := Summarize.method_confined (h₁.confined hb).graph f m
    have hplaced := @Summarize.method_places p b₁.graph f m
    generalize Summarize.method p b₁.graph f m = r at hfails hsummary hplaced ⊢
    obtain ⟨result, s⟩ := r
    refine .modify_bind (keepsConfined_baseRefs hsummary.refs) ?_
    dsimp only
    cases result with
    | error e => exact .throw (hfails rfl).1 (hfails rfl).2
    | ok _ =>
      refine .modify_bind (keepsConfined_note (fun {f' s'} hx => ?_) Or.inl) (.pure trivial)
      rcases List.mem_append.1 hx with hx | hx
      · exact Or.inl hx
      · cases List.mem_singleton.1 hx
        exact Or.inr ⟨hsummary.summary, m, hm, hplaced rfl⟩

theorem isSingleton_terminates (hb : b.Confined p g) (hf : f < b.graph.nodes.size) :
    TryTerminates p.IsMisplaced (KeepsConfined p g) (isSingleton p f) b fun _ _ => True := by
  have note : ∀ (answer : Bool) b₁, TryTerminates p.IsMisplaced (KeepsConfined p g) (do
      modify fun b => { b with singletons := b.singletons ++ [(f, answer)] }
      return answer : TryBuild Bool) b₁ fun _ _ => True :=
    fun _ _ => .modify_bind (keepsConfined_note Or.inl Or.inl) (.pure trivial)
  unfold isSingleton
  refine .get_bind ?_
  split
  · exact .pure trivial
  · refine .get_bind ?_
    dsimp only
    split
    · exact .seq (summarize_terminates hb hf) fun _ b₁ _ => .get_bind (note _ b₁)
    · exact note false b

theorem calleeContext_terminates (hb : b.Confined p g) {c : CallBinding} (hc : c.Confined g b) :
    TryTerminates p.IsMisplaced (KeepsConfined p g) (calleeContext p c) b fun cid b' =>
      b'.HasContext cid := by
  unfold calleeContext
  refine .bind (isSingleton_terminates hb hc.callee) fun answer b₁ h₁ _ => ?_
  have hb₁ := h₁.confined hb
  have hc₁ := hc.mono h₁.expands
  split
  · exact .pure hb₁.hasContext_root
  · exact .lift (selectContext_keepsConfined hb₁ hc₁.caller hc₁.site hc₁.object hc₁.callee)

/-- An arrow function has the receiver of the method it is written in. -/
theorem connectOuterThis_keepsConfined (hb : b.Confined p g) {c : CallBinding} (hc : c.Confined g b)
    {m : MethodDecl} {dst : NodeId} : Spec (KeepsConfined p g) (do
      if m.sig.isArrow then
        if let some outerThis := m.outer.bind p.thisLocal? then
          let src ← valueNode p (c.functionCid.getD c.callerCid) outerThis
          discard (addEdge .this src dst)) b fun _ _ => True := by
  split
  · split
    · rename_i this hthis
      obtain ⟨outerSig, -, hlocal⟩ := Option.bind_eq_some_iff.1 hthis
      have hcontext : b.HasContext (c.functionCid.getD c.callerCid) := by
        cases hf : c.functionCid with
        | none => exact hc.caller
        | some cid => exact hc.function cid hf
      refine .seq (valueNode_keepsConfined hb hcontext (Program.mentions_of_thisLocal? hlocal))
        fun _ _ _ => ?_
      exact .discard addEdge_keepsConfined
    · exact .pure trivial
  · exact .pure trivial

theorem connectThis_keepsConfined (hb : b.Confined p g) {c : CallBinding} (hc : c.Confined g b)
    {m : MethodDecl} {cid : ContextId} (hcid : b.HasContext cid) :
    Spec (KeepsConfined p g) (connectThis p c m cid) b fun _ _ => True := by
  unfold connectThis
  split
  · rename_i this hthis
    refine .seq (valueNode_keepsConfined hb hcid (Program.mentions_of_thisRef? hthis))
      fun dst b₁ h₁ => ?_
    have hb₁ := h₁.confined hb
    have hc₁ := hc.mono h₁.expands
    dsimp only
    split
    · refine .seq (.discard addEdge_keepsConfined) fun _ b₂ h₂ => ?_
      exact connectOuterThis_keepsConfined (h₂.confined hb₁) (hc₁.mono h₂.expands)
    · exact connectOuterThis_keepsConfined hb₁ hc₁
  · exact .pure trivial

/-- What the arguments pass to the parameters. -/
theorem connectArgs_keepsConfined (hb : b.Confined p g) {c : CallBinding} {m : MethodDecl}
    {cid : ContextId} (hcid : b.HasContext cid) :
    Spec (KeepsConfined p g) (c.args.forM fun arg => do
      if let some param := (p.params m.sig).lookup arg.2 then
        discard (addEdge .copy arg.1 (← valueNode p cid param))) b fun _ _ => True := by
  refine .forM_any fun arg _ b₁ h₁ => ?_
  split
  · rename_i param hparam
    obtain ⟨l₁, l₂, hl, -⟩ := List.lookup_eq_some_iff.1 hparam
    have hmem : (arg.2, param) ∈ p.params m.sig := by simp [hl]
    refine .seq (valueNode_keepsConfined (h₁.confined hb) (h₁.expands.hasContext hcid)
      (Program.mentions_of_params hmem)) fun _ _ _ => ?_
    exact .discard addEdge_keepsConfined
  · exact .pure trivial

/-- What comes back from the callee, and the receiver. -/
theorem connectResult_keepsConfined (hb : b.Confined p g) {c : CallBinding} (hc : c.Confined g b)
    {m : MethodDecl} {cid : ContextId} (hcid : b.HasContext cid) : Spec (KeepsConfined p g) (do
      if let some dst := c.result then
        (p.returnValues m.sig).forM fun v => do
          discard (addEdge .copy (← valueNode p cid v) dst)
      connectThis p c m cid) b fun _ _ => True := by
  dsimp only
  split
  · refine .seq (.forM_any fun v hv b₁ h₁ => ?_) fun _ b₁ h₁ => ?_
    · refine .seq (valueNode_keepsConfined (h₁.confined hb) (h₁.expands.hasContext hcid)
        (Program.mentions_of_returnValues hv)) fun _ _ _ => ?_
      exact .discard addEdge_keepsConfined
    · exact connectThis_keepsConfined (h₁.confined hb) (hc.mono h₁.expands)
        (h₁.expands.hasContext hcid)
  · exact connectThis_keepsConfined hb hc hcid

theorem connectFlow_keepsConfined (hb : b.Confined p g) {c : CallBinding} (hc : c.Confined g b)
    {m : MethodDecl} {cid : ContextId} (hcid : b.HasContext cid) :
    Spec (KeepsConfined p g) (connectFlow p c m cid) b fun _ _ => True := by
  unfold connectFlow
  refine .seq (connectArgs_keepsConfined hb hcid) fun _ b₁ h₁ => ?_
  have hb₁ := h₁.confined hb
  have hc₁ := hc.mono h₁.expands
  have hcid₁ := h₁.expands.hasContext hcid
  dsimp only
  split
  · refine .seq (.forM_any fun param hparam b₂ h₂ => ?_) fun _ b₂ h₂ => ?_
    · refine .seq (valueNode_keepsConfined (h₂.confined hb₁) (h₂.expands.hasContext hcid₁)
        (Program.mentions_of_params hparam)) fun _ _ _ => ?_
      exact .discard addEdge_keepsConfined
    · exact connectResult_keepsConfined (h₂.confined hb₁) (hc₁.mono h₂.expands)
        (h₂.expands.hasContext hcid₁)
  · exact connectResult_keepsConfined hb₁ hc₁ hcid₁

/-- Entering a method that there is, in a context that there is, ends. -/
def EnterTerminates (p : Program) (g : CallGraph) (Out : Builder → Prop) (enter : Nat → Enter) :
    Prop :=
  ∀ {b f cid}, b.Confined p g → b.HasTarget cid f →
    Terminates p.IsMisplaced (KeepsConfined p g) Out (fun n => enter n f cid) b fun _ _ => True

/-- A method is put in the queue. -/
theorem enqueue_terminates : EnterTerminates p g Out fun _ => enqueue := by
  intro b f cid hb ht
  have hexp : b.LogsOnlyNew { b with pending := b.pending ++ [(f, cid)] } :=
    .of_same .rfl .rfl .rfl rfl rfl rfl
  refine .of_tryTerminates (.modify ⟨fun hb => ?_, hexp⟩ trivial)
  refine hb.grow hexp hb.pag (fun hx => Or.inl (Pag.node?_lt hx)) (hb.properItems hexp) hb.graph
    Or.inl Or.inl (fun hx => ?_) Or.inl Or.inl Or.inl
  rcases List.mem_append.1 hx with hx | hx
  · exact Or.inl hx
  · cases List.mem_singleton.1 hx
    exact Or.inr (hexp.hasTarget ht)

theorem connect_terminates [Lasts (KeepsConfined p g) Out] {enter : Nat → Enter}
    (henter : EnterTerminates p g Out enter) (hb : b.Confined p g) {c : CallBinding}
    (hc : c.Confined g b) :
    Terminates p.IsMisplaced (KeepsConfined p g) Out (fun n => connect p (enter n) c) b
      fun _ _ => True := by
  unfold connect
  refine .bind (.of_tryTerminates (methodOf_terminates hc.callee)) fun sig b₁ h₁ _ => ?_
  have hb₁ := h₁.confined hb
  cases (p.method? sig).filter MethodDecl.hasBody with
  | none => exact .pure trivial
  | some m =>
    refine .bind (.of_tryTerminates (calleeContext_terminates hb₁ (hc.mono h₁.expands)))
      fun cid b₂ h₂ hcid => ?_
    have hb₂ := h₂.confined hb₁
    have hc₂ := (hc.mono h₁.expands).mono h₂.expands
    refine .seq (henter hb₂ ⟨hcid, hc₂.callee⟩) fun _ b₃ h₃ => ?_
    exact .seq
      (.of_tryTerminates (.lift (connectFlow_keepsConfined (h₃.confined hb₂) (hc₂.mono h₃.expands)
        (h₃.expands.hasContext hcid)))) fun _ _ _ => .pure trivial

end Build

end PointsTo
