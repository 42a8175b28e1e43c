import PointsTo.Proofs.Builder.Layout
import PointsTo.Proofs.Links.Library

/-!
# Layouts

What laying out leaves of a summary in a context (`Builder.LaidOut`): its moves have their edges,
and its static calls and the code that sets up its free locals have asked for their methods. Every
free local has a link from what it stands for, directly or through the node of an export
(`Builder.FreeLinked`).

A builder is *complete* (`Builder.Complete`) if it is linked and this has been done for the free
locals of all methods that count as laid out. As a method counts as laid out from the moment it is
taken up, a layout keeps a builder complete only if it succeeds (`KeepsComplete`).
-/

namespace PointsTo

namespace Builder

variable {p : Program} {b b' : Builder} {cid : ContextId}

/-- The free local is linked with what it stands for, in the context. -/
def FreeLinked (p : Program) (b : Builder) (cid : ContextId) (x : FreeLocal) : Prop :=
  ∃ here, Build.nodeIn? b.pag cid (Build.entityOf p x.name) = some here ∧
    match x.exported with
    | none => (x.decl, .interprocedural, here) ∈ b.links
    | some (file, name) => ∃ shared, b.pag.find? Context.root (.exported file name) = some shared ∧
        (x.decl, .copy, shared) ∈ b.links ∧ ⟨.interprocedural, shared, here⟩ ∈ b.pag.edges

/-- The move has its edge between the nodes of its ends in the context. -/
def HasMove (b : Builder) (cid : ContextId) (e : SummaryEdge) : Prop :=
  ∃ src dst, Build.nodeIn? b.pag cid e.src = some src ∧ Build.nodeIn? b.pag cid e.dst = some dst ∧
    ⟨e.kind, src, dst⟩ ∈ b.pag.edges

/-- The context that the method was given to be entered without a call, at some time from `b` to
`b'`. -/
def EntryContext (b b' : Builder) (f : FuncId) (cid : ContextId) : Prop :=
  ∃ t, b.contexts.Extends t ∧ (t.entry f).1 = cid ∧ (t.entry f).2.Extends b'.contexts

/-- From `b` to `b'`, the code that sets up what the free local stands for has been asked for. -/
def SetupRequested (p : Program) (b b' : Builder) (x : FreeLocal) : Prop :=
  ∀ name ty m, p.value? x.decl = some (.localVar name ty m) → ∃ f c,
    b'.graph.methodOf? f = some m ∧ b'.Requested f c ∧ b.EntryContext b' f c

/-- From `b` to `b'`, the callee of the static call has been asked for, if it has a body. -/
def CalleeRequested (p : Program) (b b' : Builder) (cid : ContextId) (site : CallSite) : Prop :=
  ∃ m, b'.graph.methodOf? site.callee = some m ∧ (p.hasBody m = true → ∃ c,
    b'.Requested site.callee c ∧ CallContext b b' cid site.id none site.callee c)

/-- From `b` to `b'`, the summary has been laid out in the context. -/
structure LaidOut (p : Program) (b b' : Builder) (cid : ContextId) (s : Summary) : Prop where
  moves : ∀ e ∈ s.edges, e.src.IsPlain → e.dst.IsPlain → b'.HasMove cid e
  inits : ∀ x ∈ s.free, SetupRequested p b b' x
  calls : ∀ site ∈ s.staticCalls, (p.invokeOf? site.stmt).isSome = true →
    CalleeRequested p b b' cid site

/-- All free locals of the method are linked. -/
def FreeLocalsLinked (p : Program) (b : Builder) (cid : ContextId) (f : FuncId) : Prop :=
  ∃ s, b.summary? f = some s ∧ ∀ x ∈ s.free, b.FreeLinked p cid x

/-- Links are complete, and those of the free locals of all methods laid out are there. -/
structure Complete (p : Program) (b : Builder) : Prop where
  linked : b.Linked p
  freeLocals : ∀ {cid f}, (cid, f) ∈ b.built → b.FreeLocalsLinked p cid f

/-- Complete links stay complete. -/
def KeepsComplete (p : Program) (b b' : Builder) : Prop :=
  b.Complete p → b'.Complete p

instance (p : Program) : IsPreorder Builder (KeepsComplete p) where
  refl _ := id
  trans _ _ _ h h' := fun hb => h' (h hb)

theorem FreeLinked.mono {x : FreeLocal} (h : b.FreeLinked p cid x) (pag : b.pag.Extends b'.pag)
    (links : ∀ {l}, l ∈ b.links → l ∈ b'.links) : b'.FreeLinked p cid x := by
  obtain ⟨here, hhere, hlink⟩ := h
  refine ⟨here, Build.nodeIn?_mono (Build.entityOf_isPlain p x.name) pag hhere, ?_⟩
  cases hexp : x.exported with
  | none =>
    rw [hexp] at hlink
    exact links hlink
  | some e =>
    rw [hexp] at hlink
    obtain ⟨shared, hshared, hcopy, hedge⟩ := hlink
    exact ⟨shared, pag.find? hshared, links hcopy, pag.edge hedge⟩

theorem FreeLocalsLinked.mono {f : FuncId} (h : b.FreeLocalsLinked p cid f)
    (hb : KeepsLinked p b b') : b'.FreeLocalsLinked p cid f := by
  obtain ⟨s, hs, hfree⟩ := h
  exact ⟨s, hb.summary hs, fun x hx => (hfree x hx).mono hb.pag hb.link⟩

section Extends

variable {b₀ b₁ : Builder} {e : SummaryEdge} {x : FreeLocal} {site : CallSite} {s : Summary}

theorem HasMove.mono (h : b.HasMove cid e) (hs : e.src.IsPlain) (hd : e.dst.IsPlain)
    (hb : b.pag.Extends b'.pag) : b'.HasMove cid e := by
  obtain ⟨src, dst, hsrc, hdst, he⟩ := h
  exact ⟨src, dst, Build.nodeIn?_mono hs hb hsrc, Build.nodeIn?_mono hd hb hdst, hb.edge he⟩

theorem EntryContext.mono {f : FuncId} {c : ContextId} (h : b.EntryContext b₁ f c)
    (hfrom : b₀.contexts.Extends b.contexts) (hto : b₁.Extends b') : b₀.EntryContext b' f c := by
  obtain ⟨t, after, hc, before⟩ := h
  exact ⟨t, hfrom.trans after, hc, before.trans hto.contexts⟩

theorem SetupRequested.mono (h : SetupRequested p b b₁ x) (hfrom : b₀.contexts.Extends b.contexts)
    (hto : b₁.Extends b') : SetupRequested p b₀ b' x := by
  intro name ty m hdecl
  obtain ⟨f, c, hf, hasked, hc⟩ := h name ty m hdecl
  exact ⟨f, c, hto.graph.method hf, hto.requested hasked, hc.mono hfrom hto⟩

theorem CalleeRequested.mono (h : CalleeRequested p b b₁ cid site)
    (hfrom : b₀.contexts.Extends b.contexts)
    (hto : b₁.Extends b') : CalleeRequested p b₀ b' cid site := by
  obtain ⟨m, hm, hbody⟩ := h
  refine ⟨m, hto.graph.method hm, fun hm' => ?_⟩
  obtain ⟨c, hasked, hc⟩ := hbody hm'
  exact ⟨c, hto.requested hasked, hc.mono hfrom hto⟩

theorem LaidOut.mono (h : LaidOut p b b₁ cid s) (hfrom : b₀.contexts.Extends b.contexts)
    (hto : b₁.Extends b') : LaidOut p b₀ b' cid s where
  moves e he hs hd := (h.moves e he hs hd).mono hs hd hto.pag
  inits x hx := (h.inits x hx).mono hfrom hto
  calls site hsite hi := (h.calls site hsite hi).mono hfrom hto

end Extends

/-- Which methods count as laid out has nothing to do with the links of nodes. -/
theorem Linked.withBuilt (h : b.Linked p) (built : List (ContextId × FuncId)) :
    Linked p { b with built } :=
  ⟨h.unique, h.target, h.linkEdges, h.captureLinks, h.free⟩

theorem FreeLocalsLinked.withBuilt {f : FuncId} (h : b.FreeLocalsLinked p cid f)
    (built : List (ContextId × FuncId)) : FreeLocalsLinked p { b with built } cid f :=
  h

/-- Neither has the queue. -/
theorem Complete.withPending (h : b.Complete p) (pending : List (FuncId × ContextId)) :
    Complete p { b with pending } where
  linked :=
    ⟨h.linked.unique, h.linked.target, h.linked.linkEdges, h.linked.captureLinks, h.linked.free⟩
  freeLocals := fun hf => h.freeLocals hf

/-- Neither have facts that are shown, copies and logs. -/
theorem Complete.withPag (h : b.Complete p) {pag : Pag} (hpag : b.pag.Extends pag)
    (size : pag.nodes.size = b.pag.nodes.size) (newEdges : Array FlowEdge)
    (newSites : Array (NodeId × SiteRef)) : Complete p { b with pag, newEdges, newSites } where
  linked := h.linked.of_same hpag size rfl h.linked.free
  freeLocals := fun hf => by
    obtain ⟨s, hs, hfree⟩ := h.freeLocals hf
    exact ⟨s, hs, fun x hx => (hfree x hx).mono hpag id⟩

theorem KeepsLinked.keepsComplete (h : KeepsLinked p b b') : KeepsComplete p b b' := fun hb =>
  ⟨h.linked hb.linked, fun hf => (hb.freeLocals (h.built ▸ hf)).mono h⟩

end Builder

/-- All models of the setting keep links complete. -/
def Setting.KeepsLinks (s : Setting) : Prop :=
  ∀ m ∈ s.models, m.KeepsLinks s.program

open Builder (KeepsRequests KeepsLinked KeepsComplete)

variable {s : Setting} {p : Program} {b b' : Builder} {cid : ContextId}

namespace Build

/-! ## Laying out -/

/-- The code that sets up what a free local stands for is only asked for. -/
theorem linkFreeInit_linkSpec {x : FreeLocal} : TryTerminates AnyFailure (KeepsLinked p) (do
      if let some (.localVar _ _ m) := p.value? x.decl then
        let init ← funcOf p m .blank
        enqueue init (← entryContext init)) b fun _ b' => Builder.SetupRequested p b b' x := by
  split
  · rename_i name ty m hdecl
    refine .bind (lift_linkSpec funcOf_linkSpec) fun init b₁ h₁ hinit => ?_
    have hentry : Spec (KeepsLinked p) (entryContext init) b₁ fun cid b₂ =>
        b.EntryContext b₂ init cid ∧ b₂.graph = b₁.graph :=
      ⟨entryContext_keepsLinked b₁, ⟨b₁.contexts, h₁.contexts, rfl, .rfl⟩, rfl⟩
    refine .bind (.lift hentry) fun cid b₂ h₂ ⟨hcid, hgraph⟩ => ?_
    refine enqueue_linkSpec.mono fun _ b₃ h₃ hasked name' ty' m' hdecl' => ?_
    rw [hdecl] at hdecl'
    cases hdecl'
    exact ⟨init, cid, h₃.graph.method (hgraph ▸ hinit), Or.inl hasked, hcid.mono .rfl h₃.extends⟩
  · rename_i hnone
    exact .pure fun name ty m hdecl => absurd hdecl (hnone name ty m)

/-- The node of an entity that has one on request. -/
theorem nodeOf_places {e : Entity} : Spec (KeepsRequests p) (nodeOf p cid e) b fun n b' =>
    e.IsPlain → nodeIn? b'.pag cid e = some n := by
  refine nodeOf_linkSpec.mono fun n b' _ hfind hplain => ?_
  unfold nodeIn?
  rw [contextOf_eq hplain b'.pag b.pag cid]
  exact hfind

/-- Afterwards the free local is linked. -/
theorem linkFree_linkSpec {x : FreeLocal} :
    TryTerminates AnyFailure (KeepsLinked p) (linkFree p cid x) b fun _ b' =>
      b'.FreeLinked p cid x ∧ Builder.SetupRequested p b b' x := by
  have hplain := entityOf_isPlain p x.name
  -- Once the local is linked, only its code is left to be asked for.
  have rest :
    ∀ {b₁}, KeepsLinked p b b₁ → b₁.FreeLinked p cid x →
    TryTerminates AnyFailure (KeepsLinked p) (do
      if let some (.localVar _ _ m) := p.value? x.decl then
        let init ← funcOf p m .blank
        enqueue init (← entryContext init)) b₁ fun _ b' =>
        b'.FreeLinked p cid x ∧ Builder.SetupRequested p b b' x := fun h₁ hlinked =>
    linkFreeInit_linkSpec.mono fun _ _ h hx =>
      ⟨hlinked.mono h.pag h.link, hx.mono h₁.contexts .rfl⟩
  unfold linkFree
  refine .bind (lift_linkSpec nodeOf_places) fun here b₁ h₁ hfind => ?_
  have hhere := hfind hplain
  dsimp only
  split
  · rename_i hexp
    refine .bind (lift_linkSpec (link_linkSpec (lt_of_nodeIn? hhere))) fun _ b₂ h₂ hlink => ?_
    refine rest (trans_of (KeepsLinked p) h₁ h₂) ⟨here, nodeIn?_mono hplain h₂.pag hhere, ?_⟩
    rw [hexp]
    exact hlink
  · rename_i file name hexp
    refine .bind (lift_linkSpec nodeOf_linkSpec) fun shared b₂ h₂ hshared => ?_
    have hroot : nodeIn? b₂.pag Context.root (.exported file name) = some shared := hshared
    refine .bind (lift_linkSpec (link_linkSpec (lt_of_nodeIn? hroot))) fun _ b₃ h₃ hlink => ?_
    have hdraw :
      Spec (KeepsRequests p) (discard (addEdge .interprocedural shared here)) b₃ fun _ b' =>
        shared < b₃.pag.nodes.size → here < b₃.pag.nodes.size →
          ⟨.interprocedural, shared, here⟩ ∈ b'.pag.edges := .discard addEdge_linkSpec
    refine .bind (lift_linkSpec hdraw) fun _ b₄ h₄ hedge => ?_
    have h :=
      trans_of (KeepsLinked p) h₁ (trans_of (KeepsLinked p) h₂ (trans_of (KeepsLinked p) h₃ h₄))
    have hhere₃ := nodeIn?_mono hplain (h₂.pag.trans h₃.pag) hhere
    refine rest h ⟨here, nodeIn?_mono hplain h₄.pag hhere₃, ?_⟩
    rw [hexp]
    refine ⟨shared, (h₃.pag.trans h₄.pag).find? hshared, h₄.link hlink, ?_⟩
    exact hedge (h₃.pag.lt (lt_of_nodeIn? hroot)) (lt_of_nodeIn? hhere₃)

/-- Afterwards the move has its edge. -/
theorem layEdge_linkSpec {e : SummaryEdge} : Spec (KeepsRequests p) (layEdge p cid e) b fun _ b' =>
    e.src.IsPlain → e.dst.IsPlain → b'.HasMove cid e := by
  refine .bind nodeOf_places fun src b₁ _ hsrc => .bind nodeOf_places fun dst b₂ h₂ hdst => ?_
  refine .discard (addEdge_linkSpec.mono fun _ b₃ h₃ hedge hs hd => ?_)
  have hsrc₂ := nodeIn?_mono hs h₂.pag (hsrc hs)
  exact ⟨src, dst, nodeIn?_mono hs h₃.pag hsrc₂, nodeIn?_mono hd h₃.pag (hdst hd),
    hedge (lt_of_nodeIn? hsrc₂) (lt_of_nodeIn? (hdst hd))⟩

theorem registerDynamic_keepsRequests {role : SiteRole} {site : DynCallSite} :
    Guarantees (KeepsRequests p) (registerDynamic p cid role site) := by
  unfold registerDynamic
  split
  · exact .bind valueNode_keepsRequests fun _ => .discard addSite_keepsRequests
  · exact .pure

/-- The call is that of the site, without a receiver. -/
def OfSite (cid : ContextId) (site : CallSite) (c : CallBinding) : Prop :=
  c.callerCid = cid ∧ c.site = site.id ∧ c.contextObj = none ∧ c.callee = site.callee

theorem staticResult_linkSpec {site : CallSite} {result : Option ValueId}
    {args : List (NodeId × Nat)} {thisSrc : Option NodeId} : Spec (KeepsRequests p) (do
      let result ← match result with
        | some v => some <$> valueNode p cid v
        | none => pure none
      return ({ site := site.id, callerCid := cid, callee := site.callee, thisSrc, args, result } :
        CallBinding)) b fun c _ => OfSite cid site c := by
  cases result with
  | some v => exact .seq (.map valueNode_keepsRequests.spec) fun _ _ _ => .pure ⟨rfl, rfl, rfl, rfl⟩
  | none => exact .pure ⟨rfl, rfl, rfl, rfl⟩

theorem staticBinding_linkSpec {site : CallSite} {i : Invoke} {result : Option ValueId} :
    Spec (KeepsRequests p) (staticBinding p cid site i result) b fun c _ => OfSite cid site c := by
  unfold staticBinding
  refine .seq (argNodes_keepsRequests _ _).spec fun args _ _ => ?_
  cases i.base with
  | some base =>
    exact .seq (.map valueNode_keepsRequests.spec) fun thisSrc _ _ =>
      staticResult_linkSpec
  | none => exact staticResult_linkSpec

/-- Afterwards the callee has been asked for. -/
theorem wireStatic_linkSpec (hs : s.KeepsLinks) {site : CallSite} :
    TryTerminates AnyFailure (KeepsLinked s.program) (wireStatic s cid site) b fun _ b' =>
      (s.program.invokeOf? site.stmt).isSome = true →
      Builder.CalleeRequested s.program b b' cid site := by
  unfold wireStatic
  dsimp only
  split
  · refine .bind (methodOf_linkSpec.weaken (fun _ _ => trivial) fun _ h => h.toKeepsLinked)
      fun callee b₁ _ ⟨hb, hm⟩ => ?_
    subst hb
    split
    · refine .bind (lift_linkSpec staticBinding_linkSpec) ?_
      rintro ⟨⟩ b₂ h₂ ⟨rfl, rfl, rfl, rfl⟩
      refine .discard (connect_linkSpec.mono fun _ b₃ h₃ hentered _ => ?_)
      have hm₂ := h₂.graph.method hm
      refine ⟨callee, h₃.graph.method hm₂, fun hbody => ?_⟩
      obtain ⟨c, hasked, hc⟩ := hentered callee hm₂ hbody
      exact ⟨c, hasked, hc.mono h₂.contexts .rfl⟩
    · rename_i hbody
      refine .seq ((LibraryModel.runOnCall_linkSpec hs).weaken (fun _ => False.elim)
        fun _ h => h.toKeepsLinked) fun taken b₂ h₂ => ?_
      have done : ∀ {b₃}, KeepsLinked s.program b₂ b₃ →
          (s.program.invokeOf? site.stmt).isSome = true →
          Builder.CalleeRequested s.program b₁ b₃ cid site := fun h₃ _ =>
        ⟨callee, h₃.graph.method (h₂.graph.method hm), fun h => absurd h hbody⟩
      split
      · exact (lift_linkSpec addUnhandled_keepsRequests.spec).mono fun _ _ h₃ _ => done h₃
      · exact .pure (done (refl_of (KeepsLinked s.program) b₂))
  · rename_i hnone
    refine .pure fun hi => ?_
    obtain ⟨i, hi⟩ := Option.isSome_iff_exists.1 hi
    exact absurd hi (hnone i)

/-- Afterwards the summary is laid out, and its free locals are linked. -/
theorem layOut_linkSpec (hs : s.KeepsLinks) {summary : Summary} :
    TryTerminates AnyFailure (KeepsLinked s.program) (layOut s cid summary) b fun _ b' =>
      (∀ x ∈ summary.free, b'.FreeLinked s.program cid x) ∧
        Builder.LaidOut s.program b b' cid summary := by
  have registers :
    ∀ role (sites : List DynCallSite) b₁, TryTerminates AnyFailure (KeepsLinked s.program)
      (sites.forM fun site => (registerDynamic s.program cid role site : Build Unit) :
        TryBuild Unit) b₁ fun _ _ => True :=
    fun _ _ _ => .forM_any fun _ _ _ _ => lift_linkSpec registerDynamic_keepsRequests.spec
  have moves : TryTerminates AnyFailure (KeepsLinked s.program) (summary.edges.forM fun e =>
      (layEdge s.program cid e : Build Unit) : TryBuild Unit) b fun _ b' =>
        ∀ e ∈ summary.edges, e.src.IsPlain → e.dst.IsPlain → b'.HasMove cid e :=
    .forM (fun _ _ _ h he hs hd => (he hs hd).mono hs hd h.pag) fun e _ _ _ =>
      lift_linkSpec layEdge_linkSpec
  unfold layOut
  dsimp only
  refine .bind moves fun _ b₁ h₁ hmoves => ?_
  refine .bind (P := fun _ b' => ∀ x ∈ summary.free, b'.FreeLinked s.program cid x ∧
      Builder.SetupRequested s.program b b' x) ?_ fun _ b₂ h₂ hfree => ?_
  · refine .forM (fun _ _ _ h hx => ⟨hx.1.mono h.pag h.link, hx.2.mono .rfl h.extends⟩)
      fun x _ b₂ h₂ => ?_
    have h := trans_of (KeepsLinked s.program) h₁ h₂
    exact linkFree_linkSpec.mono fun _ _ _ hx => ⟨hx.1, hx.2.mono h.contexts .rfl⟩
  refine .bind (P := fun _ b' => ∀ site ∈ summary.staticCalls,
      (s.program.invokeOf? site.stmt).isSome = true →
        Builder.CalleeRequested s.program b b' cid site) ?_ fun _ b₃ h₃ hcalls => ?_
  · refine .forM (fun _ _ _ h hx hi => (hx hi).mono .rfl h.extends) fun site _ b₃ h₃ => ?_
    have h := trans_of (KeepsLinked s.program) h₁ (trans_of (KeepsLinked s.program) h₂ h₃)
    exact (wireStatic_linkSpec hs).mono fun _ _ _ hx hi => (hx hi).mono h.contexts .rfl
  refine .seq (registers .receiver summary.dynamicCalls b₃) fun _ b₄ h₄ => ?_
  refine (registers .unknown summary.unknownCalls b₄).mono fun _ b₅ h₅ _ => ?_
  -- What comes later does not undo what was done before.
  have h₃₅ := trans_of (KeepsLinked s.program) h₄ h₅
  have h₂₅ := trans_of (KeepsLinked s.program) h₃ h₃₅
  have h₁₅ := trans_of (KeepsLinked s.program) h₂ h₂₅
  exact ⟨fun x hx => (hfree x hx).1.mono h₂₅.pag h₂₅.link, {
    moves := fun e he hs hd => (hmoves e he hs hd).mono hs hd h₁₅.pag
    inits := fun x hx => (hfree x hx).2.mono .rfl h₂₅.extends
    calls := fun site hsite hi => (hcalls site hsite hi).mono .rfl h₃₅.extends }⟩

/-! ## Methods -/

/-- What is done with a method that has been taken up. -/
theorem layOutTaken_linkSpec (hs : s.KeepsLinks) {f : FuncId} :
    TryTerminates AnyFailure (KeepsLinked s.program) (do
    let _ ← summarize s.program f
    if let some summary := (← get).summary? f then layOut s cid summary) b fun _ b' =>
      ∃ summary, b'.summary? f = some summary ∧
        (∀ x ∈ summary.free, b'.FreeLinked s.program cid x) ∧
        Builder.LaidOut s.program b b' cid summary := by
  refine .bind (summarize_linkSpec.weaken (fun _ _ => trivial) fun _ h => h.toKeepsLinked) ?_
  rintro _ b₁ h₁ ⟨⟨summary, hsummary⟩, -⟩
  refine .get_bind ?_
  rw [hsummary]
  refine (layOut_linkSpec hs).mono fun _ b₂ h₂ ⟨hlinks, hlaid⟩ => ?_
  exact ⟨summary, h₂.summary hsummary, hlinks, hlaid.mono h₁.contexts .rfl⟩

/-- Taking up a method changes nothing but what counts as laid out, so what was complete stays so
until the method itself is linked. -/
theorem instantiate_keepsComplete (hs : s.KeepsLinks) {f : FuncId} :
    TryGuarantees (KeepsComplete s.program) (instantiate s f cid) := by
  intro b _ b' h hb
  by_cases hbuilt : (cid, f) ∈ b.built
  · rw [run_instantiate_of_built hbuilt] at h
    cases h
    exact hb
  · rw [run_instantiate_of_not_built hbuilt] at h
    obtain ⟨hrun, summary, hsummary, hlinks, -⟩ := (layOutTaken_linkSpec hs).trySpec.of_run h
    refine ⟨hrun.linked (hb.linked.withBuilt _), fun hf => ?_⟩
    rw [hrun.built] at hf
    rcases List.mem_cons.1 hf with heq | hf
    · cases heq
      exact ⟨summary, hsummary, hlinks⟩
    · exact ((hb.freeLocals hf).withBuilt _).mono hrun

theorem drain_keepsComplete (hs : s.KeepsLinks) (n : Nat) :
    TryGuarantees (KeepsComplete s.program) (drain s n) := by
  induction n with
  | zero =>
    unfold drain
    refine .bind .get fun b => ?_
    split
    · exact .throw
    · exact .pure
  | succ n ih =>
    unfold drain
    refine .bind .get fun b => ?_
    split
    · exact .pure
    · refine .bind (fun b _ _ hrun => ?_) fun _ => .bind (instantiate_keepsComplete hs) fun _ => ih
      cases hrun
      exact fun hb => hb.withPending _

end Build

/-- Requests, single layouts and the queue keep to `R`, for the outcomes that count. -/
structure Setting.QueueGuarantees (s : Setting) (o : Outcomes) (R : Builder → Builder → Prop) :
    Prop where
  keepsLinked : ∀ {b b'}, KeepsLinked s.program b b' → R b b'
  instantiate : ∀ {f cid}, GuaranteesOn o R (Build.instantiate s f cid)
  drain : ∀ n, GuaranteesOn o R (Build.drain s n)

/-- Links stay complete while methods are laid out, if that succeeds. -/
theorem Setting.KeepsLinks.queueKeepsComplete (hs : s.KeepsLinks) :
    s.QueueGuarantees .successes (KeepsComplete s.program) where
  keepsLinked := KeepsLinked.keepsComplete
  instantiate := .of_tryGuarantees (Build.instantiate_keepsComplete hs)
  drain n := .of_tryGuarantees (Build.drain_keepsComplete hs n)

namespace Build

variable {o : Outcomes} {R : Builder → Builder → Prop} [IsPreorder Builder R] {f : FuncId}

theorem enterNow_guarantees (h : s.QueueGuarantees o R) : GuaranteesOn o R (enterNow s f cid) :=
  .bind (enqueue_keepsLinked.weaken h.keepsLinked) fun _ => h.drain s.fuel

theorem enterNow_enterGuarantees (h : s.QueueGuarantees o R) :
    Enter.Guarantees s.program o R (enterNow s) :=
  ⟨fun hkept => h.keepsLinked hkept.toKeepsLinked, selectContext_keepsLinked.weaken h.keepsLinked,
    fun {_ _} => enterNow_guarantees h⟩

theorem enterEntry_guarantees (h : s.QueueGuarantees o R) : GuaranteesOn o R (enterEntry s f) := by
  have hentry : GuaranteesOn o R (liftM (entryContext f) : TryBuild ContextId) :=
    .lift (entryContext_keepsLinked.weaken h.keepsLinked)
  exact .bind hentry fun _ => .bind (enterNow_guarantees h) fun _ => .pure

theorem enqueue_enterGuarantees {p : Program} : Enter.Guarantees p o (KeepsLinked p) enqueue :=
  ⟨fun h => h.toKeepsLinked, selectContext_keepsLinked, enqueue_keepsLinked⟩

theorem runModels_guarantees (hs : s.KeepsLinks) (h : s.QueueGuarantees o R)
    {c : ModelCall} {role : SiteRole}
    {obj : NodeId} : GuaranteesOn o R (runModels s c role obj) := by
  have hrun : GuaranteesOn o (KeepsLinked s.program)
      (LibraryModel.runOnObject s.program enqueue c role obj s.models) :=
    LibraryModel.runOnObject_guarantees hs enqueue_enterGuarantees
  exact .bind (hrun.weaken h.keepsLinked) fun _ => .bind (h.drain s.fuel) fun _ => .pure

end Build

end PointsTo
