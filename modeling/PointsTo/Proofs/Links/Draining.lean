import PointsTo.Proofs.Confined.Layout
import PointsTo.Proofs.Links.Wholeness

/-!
# The queue is worked off

Laying out a method asks for the callees of its static calls and for the code that sets up its free
locals, in contexts of the table or in its own context (`Builder.RequestsFrom`). So all that waits
can be told from what waited first (`Builder.OnlyRequestable`). As contexts have at most `k` items,
there are only so many methods and contexts to be taken up (`Builder.OnlyRequestable.built_le`),
however the calls go round, and the queue comes to its end (`drain_settles`).

If it does so without failure, nothing waits any more, and all methods that have been taken up are
laid out with all that they ask for (`enterNow_drained`).
-/

namespace PointsTo

/-- The method has a local. -/
def Program.HasLocal (p : Program) (m : MethodSig) : Prop :=
  ∃ v name ty, p.value? v = some (.localVar name ty m)

theorem Program.hasLocal_finite (p : Program) : {m | p.HasLocal m}.Finite := by
  refine (p.namesMethod_finite {}).subset ?_
  rintro m ⟨v, name, ty, hv⟩
  exact p.namesMethod_of_value? hv rfl

namespace Builder

variable {p : Program} {b b' b₀ b₁ : Builder} {cid c : ContextId} {f : FuncId}

/-- A static call or a free local can ask for the method. -/
def Callable (p : Program) (b : Builder) (f : FuncId) : Prop :=
  (∃ site ∈ b.graph.sites, site.callee = f) ∨ ∃ m, p.HasLocal m ∧ b.graph.methodOf? f = some m

/-- A static call or a free local can make the item. -/
def MayBeItem (p : Program) (b : Builder) : ContextItem → Prop
  | .callSite id callee => ∃ site ∈ b.graph.sites, site.id = id ∧ site.callee = callee
  | .object _ => False
  | .function f => b.Callable p f

/-- The context is in the table. -/
def InTable (b : Builder) (cid : ContextId) : Prop :=
  (b.contexts.context? cid).isSome = true

theorem Callable.mono (h : b.Callable p f) (hg : b.graph.Grows b'.graph) : b'.Callable p f := by
  refine h.imp (fun h => hg.sites ▸ h) ?_
  rintro ⟨m, hlocal, hm⟩
  exact ⟨m, hlocal, hg.method hm⟩

theorem MayBeItem.mono {x : ContextItem} (h : b.MayBeItem p x) (hg : b.graph.Grows b'.graph) :
    b'.MayBeItem p x := by
  cases x with
  | callSite id callee =>
    obtain ⟨site, hsite, h⟩ := h
    exact ⟨site, hg.sites ▸ hsite, h⟩
  | object => exact h
  | function f => exact Callable.mono h hg

theorem InTable.mono (h : b.InTable cid) (hc : b.contexts.Extends b'.contexts) :
    b'.InTable cid := by
  obtain ⟨ctx, hctx⟩ := Option.isSome_iff_exists.1 h
  exact Option.isSome_of_eq_some (hc.context hctx)

/-- What is done on behalf of a method that is laid out in the context: the builder goes on, and
what is asked for meanwhile is so by static calls and free locals, in the same context or in one of
the table. -/
structure RequestsFrom (p : Program) (cid : ContextId) (b b' : Builder) : Prop
    extends KeepsLinked p b b' where
  proper : ∀ {P : ContextItem → Prop}, (∀ x, b'.MayBeItem p x → P x) →
    b.contexts.Proper P → b'.contexts.Proper P
  requests : ∀ {f c}, (f, c) ∈ b'.pending →
    (f, c) ∈ b.pending ∨ b'.Callable p f ∧ (b'.InTable c ∨ c = cid)

instance (p : Program) (cid : ContextId) : IsPreorder Builder (RequestsFrom p cid) where
  refl b := ⟨refl_of (KeepsLinked p) b, fun _ h => h, Or.inl⟩
  trans _ _ _ h h' := {
    toKeepsLinked := trans_of (KeepsLinked p) h.toKeepsLinked h'.toKeepsLinked
    proper := fun hx hb => h'.proper hx (h.proper (fun x hi => hx x (hi.mono h'.graph)) hb)
    requests := fun hf => (h'.requests hf).elim (fun hf => (h.requests hf).imp_right fun ⟨hf, hc⟩ =>
      ⟨hf.mono h'.graph, hc.imp_left fun hc => hc.mono h'.contexts⟩) Or.inr }

theorem KeepsRequests.requestsFrom (h : KeepsRequests p b b') : RequestsFrom p cid b b' where
  toKeepsLinked := h.toKeepsLinked
  proper := fun _ hb => h.sameContexts ▸ hb
  requests := fun hf => Or.inl (h.samePending ▸ hf)

end Builder

open Builder (RequestsFrom KeepsRequests KeepsLinked)

variable {s : Setting} {p : Program} {b b' : Builder} {cid c : ContextId} {f : FuncId}

/-- A call without receiver gets a context of the table, or that of its caller. -/
theorem ContextTable.Proper.context?_select_or {P : ContextItem → Prop} {t : ContextTable}
    (h : t.Proper P) (caller : ContextId) (site : Nat) (callee : Nat) :
    ((t.select caller site none callee).2.context?
      (t.select caller site none callee).1).isSome = true ∨
      (t.select caller site none callee).1 = caller := by
  unfold ContextTable.select
  split
  · exact Or.inl (Option.isSome_of_eq_some (t.context?_extend _ _))
  · rename_i hnone
    cases hnone
  · dsimp only
    split
    · exact Or.inl (Option.isSome_of_eq_some h.root)
    · exact Or.inr rfl
  · exact Or.inl (Option.isSome_of_eq_some (t.context?_extend _ _))

namespace Build

/-! ## What a layout asks for -/

theorem lift_requestsFrom {α : Type} {m : Build α} {Q : α → Builder → Prop}
    (h : Spec (KeepsRequests p) m b Q) :
    TryTerminates AnyFailure (RequestsFrom p cid) (liftM m : TryBuild α) b Q :=
  .lift (h.weaken fun _ h => h.requestsFrom)

/-- Only a context is asked for. -/
theorem requestsFrom_of_contexts {contexts : ContextTable} (h : b.contexts.Extends contexts)
    (proper : ∀ {P : ContextItem → Prop}, (∀ x, b.MayBeItem p x → P x) →
      b.contexts.Proper P → contexts.Proper P) : RequestsFrom p cid b { b with contexts } where
  toKeepsLinked := keepsLinked_requests b h (proper fun _ _ => trivial) List.prefix_rfl
  proper := proper
  requests := Or.inl

theorem entryContext_requestsFrom (hb : b.WellFormed p) (hf : b.Callable p f) :
    Spec (RequestsFrom p cid) (entryContext f) b fun c b' => b'.InTable c :=
  ⟨requestsFrom_of_contexts (b.contexts.entry_extends f) fun hx hp =>
    hp.entry fun _ => hx (.function f) hf, hb.contexts.context?_entry f⟩

theorem selectContext_requestsFrom (hb : b.WellFormed p) {site : CallSite}
    (hsite : site ∈ b.graph.sites) :
    Spec (RequestsFrom p cid) (selectContext cid site.id none site.callee) b fun c b' =>
      b'.InTable c ∨ c = cid := by
  refine ⟨requestsFrom_of_contexts (b.contexts.select_extends ..) fun hx hp => ?_,
    hb.contexts.context?_select_or ..⟩
  exact hp.select (fun _ => hx (.callSite site.id site.callee) ⟨site, hsite, rfl, rfl⟩)
    (fun _ ho => nomatch ho) fun _ => hx (.function site.callee) (Or.inl ⟨site, hsite, rfl⟩)

theorem enqueue_requestsFrom (hf : b.Callable p f) (hc : b.InTable c ∨ c = cid) :
    TryTerminates AnyFailure (RequestsFrom p cid) (enqueue f c) b fun _ _ => True := by
  refine .modify ⟨keepsLinked_requests b .rfl id (List.prefix_append _ _), fun _ h => h, ?_⟩ trivial
  intro g d hg
  refine (List.mem_append.1 hg).imp_right fun hg => ?_
  cases List.mem_singleton.1 hg
  exact ⟨hf, hc⟩

theorem linkFreeInit_requestsFrom (hb : b.WellFormed p) {x : FreeLocal} :
    TryTerminates AnyFailure (RequestsFrom p cid) (do
      if let some (.localVar _ _ m) := p.value? x.decl then
        let init ← funcOf p m .blank
        enqueue init (← entryContext init)) b fun _ _ => True := by
  split
  · rename_i name ty m hdecl
    refine .bind (lift_requestsFrom funcOf_linkSpec) fun init b₁ h₁ hinit => ?_
    have hcallable : b₁.Callable p init := Or.inr ⟨m, ⟨x.decl, name, ty, hdecl⟩, hinit⟩
    refine .bind (.lift (entryContext_requestsFrom (h₁.wellFormed hb) hcallable))
      fun c b₂ h₂ hc => ?_
    exact enqueue_requestsFrom (hcallable.mono h₂.graph) (Or.inl hc)
  · exact .pure trivial

theorem linkFree_requestsFrom (hb : b.WellFormed p) {x : FreeLocal} :
    TryTerminates AnyFailure (RequestsFrom p cid) (linkFree p cid x) b fun _ _ => True := by
  have rest :
    ∀ {b₁ : Builder}, RequestsFrom p cid b b₁ → TryTerminates AnyFailure (RequestsFrom p cid) (do
      if let some (.localVar _ _ m) := p.value? x.decl then
        let init ← funcOf p m .blank
        enqueue init (← entryContext init)) b₁ fun _ _ => True :=
    fun h₁ => linkFreeInit_requestsFrom (h₁.wellFormed hb)
  unfold linkFree
  refine .bind (lift_requestsFrom nodeOf_places) fun here b₁ h₁ hfind => ?_
  have hhere := hfind (entityOf_isPlain p x.name)
  dsimp only
  split
  · refine .bind (lift_requestsFrom (link_linkSpec (lt_of_nodeIn? hhere))) fun _ b₂ h₂ _ => ?_
    exact rest (trans_of (RequestsFrom p cid) h₁ h₂)
  · rename_i file name _
    refine .bind (lift_requestsFrom nodeOf_linkSpec) fun shared b₂ h₂ hshared => ?_
    have hroot : nodeIn? b₂.pag Context.root (.exported file name) = some shared := hshared
    refine .bind (lift_requestsFrom (link_linkSpec (lt_of_nodeIn? hroot))) fun _ b₃ h₃ _ => ?_
    have hdraw :
      Spec (KeepsRequests p) (discard (addEdge .interprocedural shared here)) b₃ fun _ b' =>
        shared < b₃.pag.nodes.size → here < b₃.pag.nodes.size →
          ⟨.interprocedural, shared, here⟩ ∈ b'.pag.edges := .discard addEdge_linkSpec
    refine .bind (lift_requestsFrom hdraw) fun _ b₄ h₄ _ => rest ?_
    exact trans_of (RequestsFrom p cid) h₁ (trans_of (RequestsFrom p cid) h₂ (trans_of _ h₃ h₄))

theorem calleeContext_requestsFrom (hb : b.WellFormed p) {site : CallSite}
    (hsite : site ∈ b.graph.sites) {c : CallBinding} (hc : OfSite cid site c) :
    TryTerminates AnyFailure (RequestsFrom p cid) (calleeContext p c) b fun d b' =>
      b'.InTable d ∨ d = cid := by
  obtain ⟨hcid, hid, hobj, hcallee⟩ := hc
  unfold calleeContext
  refine .bind (isSingleton_linkSpec.weaken (fun _ _ => trivial) fun _ h => h.requestsFrom)
    fun single b₁ h₁ _ => ?_
  have hb₁ := h₁.wellFormed hb
  cases single with
  | true => exact .pure (Or.inl (Option.isSome_of_eq_some hb₁.contexts.root))
  | false =>
    simp only [Bool.false_eq_true, if_false, hcid, hid, hobj, hcallee]
    exact .lift (selectContext_requestsFrom hb₁ (h₁.graph.sites ▸ hsite))

theorem connect_requestsFrom (hb : b.WellFormed p) {site : CallSite} (hsite : site ∈ b.graph.sites)
    {c : CallBinding} (hc : OfSite cid site c) :
    TryTerminates AnyFailure (RequestsFrom p cid) (connect p enqueue c) b fun _ _ => True := by
  have hcallable : ∀ b', RequestsFrom p cid b b' → b'.Callable p c.callee := fun b' h =>
    Or.inl ⟨site, h.graph.sites ▸ hsite, hc.2.2.2.symm⟩
  unfold connect
  refine .seq (methodOf_linkSpec.any.weaken (fun _ _ => trivial) fun _ h => h.requestsFrom)
    fun sig b₁ h₁ => ?_
  split
  · exact .pure trivial
  · refine .bind (calleeContext_requestsFrom (h₁.wellFormed hb) (h₁.graph.sites ▸ hsite) hc)
      fun d b₂ h₂ hd => ?_
    refine .seq (enqueue_requestsFrom (hcallable b₂ (trans_of _ h₁ h₂)) hd) fun _ b₃ h₃ => ?_
    exact .seq (lift_requestsFrom connectFlow_keepsRequests.spec) fun _ _ _ => .pure trivial

theorem wireStatic_requestsFrom (hs : s.KeepsLinks) (hb : b.WellFormed s.program) {site : CallSite}
    (hsite : site ∈ b.graph.sites) :
    TryTerminates AnyFailure (RequestsFrom s.program cid) (wireStatic s cid site) b
      fun _ _ => True := by
  unfold wireStatic
  dsimp only
  split
  · refine .seq (methodOf_linkSpec.any.weaken (fun _ _ => trivial) fun _ h => h.requestsFrom)
      fun callee b₁ h₁ => ?_
    split
    · refine .bind (lift_requestsFrom staticBinding_linkSpec) fun c b₂ h₂ hc => .discard ?_
      have h := trans_of (RequestsFrom s.program cid) h₁ h₂
      exact connect_requestsFrom (h.wellFormed hb) (h.graph.sites ▸ hsite) hc
    · refine .seq ((LibraryModel.runOnCall_linkSpec hs).weaken (fun _ => False.elim)
        fun _ h => h.requestsFrom) fun taken b₂ h₂ => ?_
      split
      · exact lift_requestsFrom addUnhandled_keepsRequests.spec
      · exact .pure trivial
  · exact .pure trivial

theorem layOut_requestsFrom (hs : s.KeepsLinks) (hb : b.WellFormed s.program) {summary : Summary}
    (hsummary : summary.FromGraph b.graph) :
    TryTerminates AnyFailure (RequestsFrom s.program cid) (layOut s cid summary) b
      fun _ _ => True := by
  have registers : ∀ role (sites : List DynCallSite) b₁,
      TryTerminates AnyFailure (RequestsFrom s.program cid) (sites.forM fun site =>
        (registerDynamic s.program cid role site : Build Unit) : TryBuild Unit) b₁
        fun _ _ => True :=
    fun _ _ _ => .forM_any fun _ _ _ _ => lift_requestsFrom registerDynamic_keepsRequests.spec
  unfold layOut
  dsimp only
  refine .seq (.forM_any fun _ _ _ _ => (lift_requestsFrom layEdge_linkSpec).any) fun _ b₁ h₁ => ?_
  refine .seq (.forM_any fun _ _ _ h => ?_) fun _ b₂ h₂ => ?_
  · exact linkFree_requestsFrom ((trans_of (RequestsFrom s.program cid) h₁ h).wellFormed hb)
  refine .seq (.forM_any fun site hsite _ h => ?_) fun _ b₃ h₃ => ?_
  · have h := trans_of (RequestsFrom s.program cid) h₁ (trans_of (RequestsFrom s.program cid) h₂ h)
    exact wireStatic_requestsFrom hs (h.wellFormed hb) (h.graph.sites ▸ hsummary.sites site hsite)
  exact .seq (registers .receiver summary.dynamicCalls b₃) fun _ b₄ _ =>
    registers .unknown summary.unknownCalls b₄

theorem layOutTaken_requestsFrom (hs : s.KeepsLinks) (hb : b.WellFormed s.program) :
    TryTerminates AnyFailure (RequestsFrom s.program cid) (do
      let _ ← summarize s.program f
      if let some summary := (← get).summary? f then layOut s cid summary) b fun _ _ => True := by
  refine .seq (summarize_linkSpec.any.weaken (fun _ _ => trivial) fun _ h => h.requestsFrom)
    fun _ b₁ h₁ => ?_
  have hb₁ := h₁.wellFormed hb
  refine .get_bind ?_
  split
  · rename_i summary hsummary
    exact layOut_requestsFrom hs hb₁ (hb₁.summary (Builder.mem_of_summary? hsummary))
  · exact .pure trivial

end Build

/-! ## How much can wait -/

namespace Builder

variable {b₀ : Builder}

/-- The method can have been asked for since `b₀`, in the context. -/
structure Requestable (p : Program) (b₀ b : Builder) (f : FuncId) (c : ContextId) : Prop where
  func : b.Callable p f ∨ ∃ c, (f, c) ∈ b₀.pending
  context : b.InTable c ∨ ∃ f, (f, c) ∈ b₀.pending

/-- Since `b₀`, nothing has been done but to work off the queue. -/
structure OnlyRequestable (p : Program) (b₀ b : Builder) : Prop where
  wellFormed : b.WellFormed p
  graph : b₀.graph.Grows b.graph
  contexts : b₀.contexts.Extends b.contexts
  proper : b.contexts.Proper fun x => x ∈ b₀.contexts.items ∨ b.MayBeItem p x
  pending : ∀ {f c}, (f, c) ∈ b.pending → Requestable p b₀ b f c
  built : ∀ {f c}, (c, f) ∈ b.built → (c, f) ∈ b₀.built ∨ Requestable p b₀ b f c

theorem onlyRequestable_self (h : b.WellFormed p) : OnlyRequestable p b b where
  wellFormed := h
  graph := .rfl
  contexts := .rfl
  proper := { h.contexts with item := fun hx => Or.inl (Array.mem_of_getElem? hx) }
  pending := fun {f c} hf => ⟨Or.inr ⟨c, hf⟩, Or.inr ⟨f, hf⟩⟩
  built := Or.inl

theorem Requestable.mono (h : Requestable p b₀ b f c) (hg : b.graph.Grows b'.graph)
    (hc : b.contexts.Extends b'.contexts) : Requestable p b₀ b' f c where
  func := h.func.imp_left fun h => h.mono hg
  context := h.context.imp_left fun h => h.mono hc

/-- What is done on behalf of a method that has waited. -/
theorem OnlyRequestable.requestsFrom (h : OnlyRequestable p b₀ b) (hb : RequestsFrom p cid b b')
    (hcid : b.InTable cid ∨ ∃ f, (f, cid) ∈ b₀.pending) : OnlyRequestable p b₀ b' where
  wellFormed := hb.wellFormed h.wellFormed
  graph := h.graph.trans hb.graph
  contexts := h.contexts.trans hb.contexts
  proper := hb.proper (fun _ => Or.inr) (h.proper.mono fun hx =>
    hx.imp_right fun hx => hx.mono hb.graph)
  pending := fun {f c} hf => by
    rcases hb.requests hf with hf | ⟨hf, hc | rfl⟩
    · exact (h.pending hf).mono hb.graph hb.contexts
    · exact ⟨Or.inl hf, Or.inl hc⟩
    · exact ⟨Or.inl hf, hcid.imp_left fun hc => hc.mono hb.contexts⟩
  built := fun hf => (h.built (hb.built ▸ hf)).imp_right fun hf =>
    hf.mono hb.graph hb.contexts

/-- Only so many methods can be asked for. -/
theorem callable_le (p : Program) (b₀ : Builder) : ∃ n : ℕ, ∀ b : Builder, b.WellFormed p →
    b₀.graph.Grows b.graph → {f | b.Callable p f}.encard ≤ n := by
  have hcallees : {f | ∃ site ∈ b₀.graph.sites, site.callee = f}.Finite := by
    simpa using finite_filterMap b₀.graph.sites fun site => some site.callee
  let callees : Set FuncId := {f | ∃ site ∈ b₀.graph.sites, site.callee = f}
  let locals : Set (Option MethodSig) := some '' {m | p.HasLocal m}
  refine ⟨callees.ncard + locals.ncard, fun b hb hg => ?_⟩
  have hlocals : {f | ∃ m, p.HasLocal m ∧ b.graph.methodOf? f = some m}.encard ≤
      locals.encard := by
    -- Methods have one id each.
    refine Set.encard_le_encard_of_injOn (f := b.graph.methodOf?) ?_ ?_
    · rintro f ⟨m, hlocal, hm⟩
      exact ⟨m, hlocal, hm.symm⟩
    · rintro f ⟨m, -, hm⟩ f' - heq
      exact hb.graph.distinct hm (heq ▸ hm)
  have hsplit : {f | b.Callable p f} =
      callees ∪ {f | ∃ m, p.HasLocal m ∧ b.graph.methodOf? f = some m} := by
    simp only [callees, ← hg.sites]
    rfl
  rw [hsplit, Nat.cast_add, hcallees.cast_ncard_eq, (p.hasLocal_finite.image _).cast_ncard_eq]
  exact (Set.encard_union_le _ _).trans (add_le_add le_rfl hlocals)

/-- Only so many items can there be. -/
theorem OnlyRequestable.items_le (p : Program) (b₀ : Builder) :
    ∃ n : ℕ, ∀ b, OnlyRequestable p b₀ b → b.contexts.items.size ≤ n := by
  obtain ⟨funcs, hfuncs⟩ := callable_le p b₀
  let old : Set ContextItem := {x | x ∈ b₀.contexts.items}
  let calls : Set ContextItem :=
    {x | ∃ site ∈ b₀.graph.sites, ContextItem.callSite site.id site.callee = x}
  have hold : old.Finite := by simpa [old] using List.finite_toSet b₀.contexts.items.toList
  have hcalls : calls.Finite := by
    simpa [calls] using finite_filterMap b₀.graph.sites fun site =>
      some (ContextItem.callSite site.id site.callee)
  refine ⟨old.ncard + calls.ncard + funcs, fun b h => ?_⟩
  have hsub : {x | x ∈ b₀.contexts.items ∨ b.MayBeItem p x} ⊆
      (old ∪ calls) ∪ ContextItem.function '' {f | b.Callable p f} := by
    rintro x (hx | hx)
    · exact Or.inl (Or.inl hx)
    · cases x with
      | callSite id callee =>
        obtain ⟨site, hsite, rfl, rfl⟩ := hx
        exact Or.inl (Or.inr ⟨site, h.graph.sites ▸ hsite, rfl⟩)
      | object obj => exact hx.elim
      | function f => exact Or.inr ⟨f, hx, rfl⟩
  have hitems : {x | x ∈ b₀.contexts.items ∨ b.MayBeItem p x}.encard ≤
      (old.ncard + calls.ncard + funcs : ℕ) := by
    refine (Set.encard_le_encard hsub).trans ((Set.encard_union_le _ _).trans ?_)
    have hfunction := (Set.encard_image_le ContextItem.function _).trans
      (hfuncs b h.wellFormed h.graph)
    simp only [Nat.cast_add, hold.cast_ncard_eq, hcalls.cast_ncard_eq]
    exact add_le_add (Set.encard_union_le _ _) hfunction
  obtain ⟨hfinite, hncard⟩ := Set.encard_le_coe_iff_finite_ncard_le.1 hitems
  exact (h.proper.items.size_le_ncard hfinite h.proper.item).trans hncard

/-- They make only so many contexts. -/
theorem OnlyRequestable.contexts_le (p : Program) (b₀ : Builder) :
    ∃ n : ℕ, ∀ b, OnlyRequestable p b₀ b → b.contexts.contexts.size ≤ n := by
  obtain ⟨items, hitems⟩ := items_le p b₀
  refine ⟨(sequences b₀.contexts.k items).ncard, fun b h => ?_⟩
  have hk : b.contexts.k = b₀.contexts.k := h.contexts.k
  refine h.proper.contexts.size_le_ncard (sequences_finite _ _) fun hctx => ?_
  exact hk ▸ sequences_mono (hitems b h) (h.proper.context hctx)

/-- Only so much can be taken up. -/
theorem OnlyRequestable.built_le (p : Program) (b₀ : Builder) :
    ∃ n : ℕ, ∀ b, OnlyRequestable p b₀ b → {x | x ∈ b.built}.ncard ≤ n := by
  obtain ⟨funcs, hfuncs⟩ := callable_le p b₀
  obtain ⟨contexts, hcontexts⟩ := contexts_le p b₀
  have hold : {x | x ∈ b₀.built}.Finite := List.finite_toSet b₀.built
  have hpending : {x | x ∈ b₀.pending}.Finite := List.finite_toSet b₀.pending
  let waiting := {x | x ∈ b₀.pending}.ncard
  refine ⟨{x | x ∈ b₀.built}.ncard + (contexts + waiting) * (funcs + waiting), fun b h => ?_⟩
  let cids : Set ContextId := {c | b.InTable c ∨ ∃ f, (f, c) ∈ b₀.pending}
  let fs : Set FuncId := {f | b.Callable p f ∨ ∃ c, (f, c) ∈ b₀.pending}
  have hcids : cids.encard ≤ contexts + waiting := by
    refine (Set.encard_union_le _ _).trans (add_le_add ?_ ?_)
    · refine (Set.encard_le_encard (t := {c | c < b.contexts.contexts.size}) ?_).trans ?_
      · intro c hc
        obtain ⟨ctx, hctx⟩ := Option.isSome_iff_exists.1 hc
        exact (Array.getElem?_eq_some_iff.1 hctx).1
      · rw [← (Set.finite_lt_nat _).cast_ncard_eq, ncard_lt]
        exact_mod_cast hcontexts b h
    · rw [hpending.cast_ncard_eq]
      refine (Set.encard_le_encard ?_).trans (Set.encard_image_le Prod.snd _)
      rintro c ⟨f, hf⟩
      exact ⟨(f, c), hf, rfl⟩
  have hfs : fs.encard ≤ funcs + waiting := by
    refine (Set.encard_union_le _ _).trans (add_le_add (hfuncs b h.wellFormed h.graph) ?_)
    rw [hpending.cast_ncard_eq]
    refine (Set.encard_le_encard ?_).trans (Set.encard_image_le Prod.fst _)
    rintro f ⟨c, hf⟩
    exact ⟨(f, c), hf, rfl⟩
  have hsub : {x | x ∈ b.built} ⊆ {x | x ∈ b₀.built} ∪ cids ×ˢ fs := by
    rintro ⟨c, f⟩ hx
    exact (h.built hx).imp id fun hstem => ⟨hstem.context, hstem.func⟩
  have hbuilt : {x | x ∈ b.built}.encard ≤
      ({x | x ∈ b₀.built}.ncard + (contexts + waiting) * (funcs + waiting) : ℕ) :=
    calc {x | x ∈ b.built}.encard
      _ ≤ ({x | x ∈ b₀.built} ∪ cids ×ˢ fs).encard := Set.encard_le_encard hsub
      _ ≤ {x | x ∈ b₀.built}.encard + (cids ×ˢ fs).encard := Set.encard_union_le _ _
      _ ≤ {x | x ∈ b₀.built}.ncard + (contexts + waiting) * (funcs + waiting) := by
        rw [hold.cast_ncard_eq, Set.encard_prod]
        exact add_le_add le_rfl (mul_le_mul' hcids hfs)
      _ = _ := by push_cast; rfl
  exact (Set.encard_le_coe_iff_finite_ncard_le.1 hbuilt).2

/-- The next method leaves the queue. -/
theorem OnlyRequestable.popped (h : OnlyRequestable p b₀ b) {rest : List (FuncId × ContextId)}
    (hnext : b.pending = (f, cid) :: rest) : OnlyRequestable p b₀ { b with pending := rest } where
  wellFormed := h.wellFormed.of_same rfl rfl rfl
  graph := h.graph
  contexts := h.contexts
  proper := h.proper
  pending := fun hf => (h.pending (hnext ▸ List.mem_cons_of_mem _ hf)).mono .rfl .rfl
  built := fun hf => (h.built hf).imp_right fun hf => hf.mono .rfl .rfl

/-- It is taken up. -/
theorem OnlyRequestable.takenUp (h : OnlyRequestable p b₀ b) (hf : Requestable p b₀ b f cid) :
    OnlyRequestable p b₀ { b with built := (cid, f) :: b.built } where
  wellFormed := h.wellFormed.of_same rfl rfl rfl
  graph := h.graph
  contexts := h.contexts
  proper := h.proper
  pending := fun hf => (h.pending hf).mono .rfl .rfl
  built := fun hx => by
    rcases List.mem_cons.1 hx with heq | hx
    · cases heq
      exact Or.inr (hf.mono .rfl .rfl)
    · exact (h.built hx).imp_right fun hf => hf.mono .rfl .rfl

end Builder

namespace Build

open Builder (OnlyRequestable Requestable)

variable {b₀ : Builder}

/-! ## Working off the queue -/

theorem instantiate_onlyRequestable (hs : s.KeepsLinks) (hb : OnlyRequestable s.program b₀ b)
    (hf : Requestable s.program b₀ b f cid) :
    TryTerminates AnyFailure AnyChange (instantiate s f cid) b fun _ b' =>
      OnlyRequestable s.program b₀ b' ∧
      (cid, f) ∈ b'.built ∧ b.built ⊆ b'.built ∧ ((cid, f) ∈ b.built → b' = b) := by
  unfold instantiate
  refine .get_bind ?_
  split
  · rename_i hnew
    replace hnew : (cid, f) ∉ b.built := by simpa using hnew
    refine .modify_bind trivial ?_
    have htaken := hb.takenUp hf
    refine ((layOutTaken_requestsFrom hs htaken.wellFormed).mono fun _ b₁ h _ => ?_).weaken
      (fun _ => id) fun _ _ => trivial
    have hbuilt : b₁.built = (cid, f) :: b.built := h.built
    rw [hbuilt]
    exact ⟨htaken.requestsFrom h (hf.mono .rfl .rfl).context, List.mem_cons_self,
      List.subset_cons_self _ _, fun hold => absurd hold hnew⟩
  · rename_i hold
    exact .pure ⟨hb, by simpa using hold, List.Subset.refl _, fun _ => rfl⟩

theorem drainStep_onlyRequestable (hs : s.KeepsLinks) {n : ℕ}
    (hroom : ∀ b, OnlyRequestable s.program b₀ b → {x | x ∈ b.built}.ncard ≤ n)
    (hb : OnlyRequestable s.program b₀ b) :
    TryTerminates AnyFailure AnyChange (drainStep s) b fun more b' =>
      OnlyRequestable s.program b₀ b' ∧ (more = true → drainMeasure n b' < drainMeasure n b) := by
  unfold drainStep
  refine .get_bind ?_
  split
  · exact .pure ⟨hb, nofun⟩
  · rename_i f cid rest hnext
    have hnow : Requestable s.program b₀ b f cid := hb.pending (hnext ▸ List.mem_cons_self)
    refine .modify_bind trivial ?_
    refine .bind (instantiate_onlyRequestable hs (hb.popped hnext) (hnow.mono .rfl .rfl)) ?_
    intro _ b₁ _ ⟨hb₁, hbuilt, hsub, hsame⟩
    refine .pure ⟨hb₁, fun _ => ?_⟩
    exact drainMeasure_lt hnext hbuilt (fun hx => hsub hx) hsame (hroom b₁ hb₁)

/-- With enough fuel, the queue comes to its end, and more fuel changes nothing. -/
theorem drain_settles (hs : s.KeepsLinks) (hb : b.WellFormed s.program) :
    Terminates AnyFailure AnyChange (fun _ => False) (fun n => drain (s.withFuel n) n) b
      fun _ _ => True := by
  obtain ⟨room, hroom⟩ := OnlyRequestable.built_le s.program b
  refine .loop (I := OnlyRequestable s.program b) (drainMeasure room) (fun n b₁ _ => ?_)
    (fun n k => drain_succ (s.withFuel n) k) (fun b₁ hb₁ => ?_) (Builder.onlyRequestable_self hb)
  · unfold drain
    refine .get_bind ?_
    split
    · exact .throw (Or.inl rfl)
    · exact .pure trivial
  · refine Terminates.of_tryTerminates
      ((drainStep_onlyRequestable hs hroom hb₁).mono fun more b₂ _ h => ?_)
    exact ⟨h.1, fun hmore _ => h.2 hmore⟩

theorem enterNow_settles (hs : s.KeepsLinks) (hb : b.WellFormed s.program) :
    Terminates AnyFailure AnyChange (fun _ => False) (fun n => enterNow (s.withFuel n) f cid) b
      fun _ _ => True := by
  have hqueue : TryTerminates AnyFailure AnyChange (enqueue f cid) b fun _ b' =>
    b'.WellFormed s.program :=
    (enqueue_linkSpec.mono fun _ _ h _ => h.wellFormed hb).weaken (fun _ => id) fun _ _ => trivial
  exact .bind (.of_tryTerminates hqueue) fun _ _ _ hb₁ => drain_settles hs hb₁

end Build

namespace Builder

/-- All moves of the summary have their edges in the context, and all that it asks for has been
taken up, once: the callees of its static calls, in the contexts of the calls, and the code that
sets up its free locals. -/
structure Fulfils (p : Program) (b : Builder) (cid : ContextId) (s : Summary) : Prop where
  moves : ∀ e ∈ s.edges, b.HasMove cid e
  calls : ∀ site ∈ s.staticCalls, ∃ m, b.graph.methodOf? site.callee = some m ∧
    (p.hasBody m = true → ∃ c, b.built.count (c, site.callee) = 1 ∧
      CallContext b.blank b cid site.id none site.callee c)
  inits : ∀ x ∈ s.free, ∀ name ty m, p.value? x.decl = some (.localVar name ty m) → ∃ f c,
    b.graph.methodOf? f = some m ∧ b.built.count (c, f) = 1 ∧ b.blank.EntryContext b f c

/-- What has been asked for has been taken up if nothing waits, once. -/
theorem LaidOutOnce.count_of_requested (h : b.LaidOutOnce p) (hempty : b.pending = [])
    (hf : b.Requested f cid) : b.built.count (cid, f) = 1 :=
  List.count_eq_one_of_mem h.once (Build.built_of_requested hf hempty)

/-- If nothing waits, every method that has been taken up is laid out with all that it asks for. -/
theorem LaidOutOnce.fulfils (h : b.LaidOutOnce p) (hempty : b.pending = [])
    (hf : (cid, f) ∈ b.built) : ∃ s, b.summary? f = some s ∧ b.Fulfils p cid s := by
  obtain ⟨s, hs, hlaid⟩ := h.laidOut hf
  have hdrawn := h.wellFormed.summary (mem_of_summary? hs)
  refine ⟨s, hs, ?_, fun site hsite => ?_, fun x hx name ty m hdecl => ?_⟩
  · exact fun e he => hlaid.moves e he (hdrawn.plain e he).1 (hdrawn.plain e he).2
  · obtain ⟨i, hi, -⟩ := h.wellFormed.graph.named site (hdrawn.sites site hsite)
    obtain ⟨m, hm, henters⟩ := hlaid.calls site hsite (Option.isSome_of_eq_some hi)
    refine ⟨m, hm, fun hbody => ?_⟩
    obtain ⟨c, hasked, hc⟩ := henters hbody
    exact ⟨c, h.count_of_requested hempty hasked, hc⟩
  · obtain ⟨init, c, hinit, hasked, hc⟩ := hlaid.inits x hx name ty m hdecl
    exact ⟨init, c, hinit, h.count_of_requested hempty hasked, hc⟩

/-- Wherever the builder has got to: if it is asked to lay out a method, it comes to an end, given
enough fuel. If it succeeds, nothing waits any more. The method has been taken up, and so has all
that waited before and all that was taken up before, each once. And all that any of these methods
asks for has been taken up in turn. -/
theorem enterNow_drained (hs : s.models ⊆ LibraryModel.standard) (h : b.ReachedByRequests s)
    (f : FuncId) (cid : ContextId) : (∃ r : Except Failure Unit × Builder, r.1 ≠ .error .outOfFuel ∧
      ∀ᶠ n in Filter.atTop, (Build.enterNow (s.withFuel n) f cid).run.run b = r) ∧
    ∀ n b', (Build.enterNow (s.withFuel n) f cid).run.run b = (.ok (), b') →
      b'.pending = [] ∧ b'.built.count (cid, f) = 1 ∧
      (∀ g c, b.Requested g c → b'.built.count (c, g) = 1) ∧
      ∀ c g, (c, g) ∈ b'.built → b'.built.count (c, g) = 1 ∧
        ∃ summary, b'.summary? g = some summary ∧ b'.Fulfils s.program c summary := by
  have hleads : s.KeepsLinks := Build.keepsLinks_of_subset hs s.program
  have hwhole := h.laidOutOnce hs
  refine ⟨?_, fun n b' hrun => ?_⟩
  · refine (Build.enterNow_settles hleads hwhole.wellFormed).ends.resolve_left fun hout => ?_
    exact hout.exists.elim fun _ => id
  · have hleads' : (s.withFuel n).KeepsLinks := hleads
    obtain ⟨hkeeps, hempty, hbuilt⟩ := Build.enterNow_keepsLaidOutOnce hleads' hrun
    have hwhole' := hkeeps.laidOutOnce hwhole
    refine ⟨hempty, hwhole'.count_of_requested hempty (Or.inr hbuilt), fun g c hg => ?_,
      fun c g hg => ⟨hwhole'.count_of_requested hempty (Or.inr hg), hwhole'.fulfils hempty hg⟩⟩
    exact hwhole'.count_of_requested hempty (hkeeps.extended.requested hg)

/-! ## Sample -/

namespace Sample

open Analysis.Sample Program

/-- `y = new Object`, and a function with `z = y` is called that calls itself. -/
def cyclic : Program :=
  let (_, p) := (addFile {} file false).2.addFunction file "f"
  let (y, d) := (p.openBody main).localVar "y" .any
  let (_, d) := d.assignNew y (.newObject (.builtin "Object"))
  let (_, d) := d.call none { kind := .named, method := beside, base := none, args := [] }
  let (x, d) := (d.close.openBody beside).localVar "y" .any
  let (z, d) := d.localVar "z" .any
  let (_, d) := d.assign z x
  (d.call none { kind := .named, method := beside, base := none, args := [] }).2.close

def drained : Builder :=
  ((Build.enterNow ((setting cyclic).withFuel 20) 0 0).run.run (empty cyclic main)).2

end Sample

open Sample Analysis.Sample

/-- The function is laid out twice, for the call from outside and for its own call. The second
layout asks for itself, and for what sets up `y`, and finds both laid out. -/
theorem enterNow_drained_cyclic :
    (setting cyclic).models ⊆ LibraryModel.standard ∧
    (empty cyclic main).ReachedByRequests (setting cyclic) ∧ drained.pending = [] ∧
    drained.built = [(2, 1), (1, 1), (0, 0)] ∧ drained.built.count (2, 1) = 1 ∧
    ∃ summary, drained.summary? 1 = some summary ∧ summary.free.length = 1 ∧
      summary.staticCalls.map CallSite.callee = [1] ∧ drained.Fulfils cyclic 2 summary := by
  have hsubset : (setting cyclic).models ⊆ LibraryModel.standard := List.Subset.refl _
  have hgrown : (empty cyclic main).ReachedByRequests (setting cyclic) :=
    ⟨.direct, [main], _, _, _, .refl⟩
  have hok : ((Build.enterNow ((setting cyclic).withFuel 20) 0 0).run.run
      (empty cyclic main)).1 = .ok () := by decide +kernel
  have hbuilt : drained.built = [(2, 1), (1, 1), (0, 0)] := by decide +kernel
  obtain ⟨hempty, -, -, hall⟩ :=
    (enterNow_drained hsubset hgrown 0 0).2 20 drained (Prod.ext hok rfl)
  obtain ⟨hcount, summary, hsummary, hfulfils⟩ := hall 2 1 (by simp [hbuilt])
  have hsize : (drained.summary? 1).map (fun s =>
      (s.free.length, s.staticCalls.map CallSite.callee)) = some (1, [1]) := by decide +kernel
  rw [hsummary, Option.map_some, Option.some.injEq, Prod.mk.injEq] at hsize
  exact ⟨hsubset, hgrown, hempty, hbuilt, hcount, summary, hsummary, hsize.1, hsize.2, hfulfils⟩

end Builder

end PointsTo
