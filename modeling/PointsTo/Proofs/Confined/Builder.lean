import PointsTo.Proofs.Builder.Nodes
import PointsTo.Proofs.Confined.States

/-!
# Requests keep a builder confined

Every request for a node, an edge, a method or a context keeps the builder confined, if it is about
things that the program has.
-/

namespace PointsTo.Build

open Builder (KeepsConfined)

variable {p : Program} {g : CallGraph} {b : Builder}

/-! ## Single changes -/

/-- What is recorded beside the graphs. Of some of it nothing is said. -/
theorem keepsConfined_note {summaries : List (FuncId × Summary)}
    {links : List (ValueId × EdgeKind × NodeId)} {singletons : List (FuncId × Bool)}
    {unhandled : List MethodSig}
    (hs : ∀ {f s}, (f, s) ∈ summaries → (f, s) ∈ b.summaries ∨ b.HasSummary p g f s)
    (hl : ∀ {l}, l ∈ links → l ∈ b.links ∨ b.HasLink p l) :
    KeepsConfined p g b { b with summaries, links, singletons, unhandled } := by
  have hexp : b.LogsOnlyNew { b with summaries, links, singletons, unhandled } :=
    .of_same .rfl .rfl .rfl rfl rfl rfl
  refine ⟨fun hb => ?_, hexp⟩
  exact hb.grow hexp hb.pag (fun hx => Or.inl (Pag.node?_lt hx)) (hb.properItems hexp) hb.graph
    (fun hx => (hs hx).imp_right hexp.hasSummary) Or.inl Or.inl
    (fun hx => (hl hx).imp_right hexp.hasLink) Or.inl Or.inl

theorem keepsConfined_addNode {cid : ContextId} {e : Entity}
    {kind : NodeKind} (hc : b.HasPlace cid e)
    (hbelongs : b.pag.Belongs cid e) (he : b.HasEntity p e) (hk : b.HasKind p g e kind) :
    KeepsConfined p g b { b with pag := (b.pag.addNode cid e kind).2 } := by
  have hexp : b.LogsOnlyNew { b with pag := (b.pag.addNode cid e kind).2 } :=
    .of_same (b.pag.addNode_extends cid e kind) .rfl .rfl rfl rfl rfl
  refine ⟨fun hb => ?_, hexp⟩
  refine hb.grow hexp (hb.pag.addNode hbelongs kind) (fun hx => ?_) (hb.properItems hexp) hb.graph
    Or.inl Or.inl Or.inl Or.inl Or.inl Or.inl
  rcases Pag.node?_addNode hx with hx | ⟨-, rfl⟩
  · exact Or.inl (Pag.node?_lt hx)
  · exact Or.inr (hexp.admits ⟨hc, he, hk⟩)

theorem Pag.not_mem_of_addEdge {g : Pag} {kind : EdgeKind} {src dst : NodeId}
    (h : (g.addEdge kind src dst).1 = true) : (⟨kind, src, dst⟩ : FlowEdge) ∉ g.edges := by
  intro he
  unfold Pag.addEdge at h
  rw [Pag.hasEdge_iff.2 he] at h
  simp at h

theorem Pag.not_mem_of_addSite {g : Pag} {n : NodeId} {site : SiteRef}
    (h : (g.addSite n site).1 = true) : site ∉ g.sitesOf n := by
  intro hs
  unfold Pag.addSite at h
  split at h
  · rename_i hc
    simp [hs] at hc
  · cases h

theorem addEdge_keepsConfined {kind : EdgeKind} {src dst : NodeId} :
    Spec (KeepsConfined p g) (addEdge kind src dst) b fun _ _ => True := by
  refine ⟨?_, trivial⟩
  rw [Builder.run_addEdge]
  have hg := b.pag.addEdge_extends kind src dst
  -- The edge is logged only if it was not there.
  have hlog : ∀ {e}, e ∈ (if (b.pag.addEdge kind src dst).1 then b.newEdges.push ⟨kind, src, dst⟩
      else b.newEdges) → e ∈ b.newEdges ∨
        (b.pag.addEdge kind src dst).1 = true ∧ e = ⟨kind, src, dst⟩ := by
    intro e he
    split at he
    · rename_i hnew
      exact (Array.mem_push.1 he).imp_right fun h => ⟨hnew, h⟩
    · exact Or.inl he
  have hexp : b.LogsOnlyNew { b with
      pag := (b.pag.addEdge kind src dst).2
      newEdges := if (b.pag.addEdge kind src dst).1 then b.newEdges.push ⟨kind, src, dst⟩
        else b.newEdges } := by
    refine ⟨hg, .rfl, .rfl, fun he => (hlog he).imp_right ?_, Or.inl, fun hx => hx⟩
    rintro ⟨hnew, rfl⟩
    exact Pag.not_mem_of_addEdge hnew
  refine ⟨fun hb => ?_, hexp⟩
  refine hb.grow hexp (hb.pag.addEdge kind src dst) (fun hx => Or.inl ?_) (hb.properItems hexp)
    hb.graph Or.inl Or.inl Or.inl Or.inl (fun he => (hlog he).imp_right ?_) fun hs => Or.inl hs
  · simpa using Pag.node?_lt hx
  · rintro ⟨hnew, rfl⟩
    exact Pag.mem_edges_of_new hnew

theorem addSite_keepsConfined {n : NodeId} (hn : b.pag.IsOwner n) {site : SiteRef}
    (hsite : p.HasSite site) : Spec (KeepsConfined p g) (addSite n site) b fun _ _ => True := by
  refine ⟨?_, trivial⟩
  rw [Builder.run_addSite]
  have hg := b.pag.addSite_extends n site
  have hlog : ∀ {x}, x ∈ (if (b.pag.addSite n site).1 then b.newSites.push (n, site)
      else b.newSites) → x ∈ b.newSites ∨ (b.pag.addSite n site).1 = true ∧ x = (n, site) := by
    intro x hx
    split at hx
    · rename_i hnew
      exact (Array.mem_push.1 hx).imp_right fun h => ⟨hnew, h⟩
    · exact Or.inl hx
  have hexp : b.LogsOnlyNew { b with
      pag := (b.pag.addSite n site).2
      newSites := if (b.pag.addSite n site).1 then b.newSites.push (n, site)
        else b.newSites } := by
    refine ⟨hg, .rfl, .rfl, Or.inl, fun hs => (hlog hs).imp_right ?_, fun hx => hx⟩
    rintro ⟨hnew, heq⟩
    cases heq
    exact Pag.not_mem_of_addSite hnew
  refine ⟨fun hb => ?_, hexp⟩
  refine hb.grow hexp (hb.pag.addSite hn hsite) (fun hx => Or.inl ?_) (hb.properItems hexp)
    hb.graph Or.inl Or.inl Or.inl Or.inl (fun he => Or.inl he) fun hs => (hlog hs).imp_right ?_
  · simpa using Pag.node?_lt hx
  · rintro ⟨hnew, heq⟩
    cases heq
    refine b.pag.mem_sitesOf_of_addSite n site ?_
    unfold Pag.addSite at hnew
    split at hnew
    · rename_i hc
      simp only [Bool.and_eq_true, decide_eq_true_eq] at hc
      exact hc.1
    · cases hnew

/-- Afterwards the method has its node. -/
theorem funcOf_keepsConfined {m : MethodSig} {missing : FuncKind} (hm : p.NamesMethod g m) :
    Spec (KeepsConfined p g) (funcOf p m missing) b fun f b' => f < b'.graph.nodes.size := by
  have hgrows := b.graph.nodeFor_grows p m missing
  have hexp : b.LogsOnlyNew { b with graph := (b.graph.nodeFor p m missing).2 } :=
    .of_same .rfl hgrows .rfl rfl rfl rfl
  refine ⟨⟨fun hb => ?_, hexp⟩, ?_⟩
  · have hgrown : g.GrownFrom p (b.graph.nodeFor p m missing).2 := {
      consistent := hb.graph.consistent.nodeFor
      method := fun {f m'} hf => by
        obtain ⟨kind, isSdk, heq⟩ := b.graph.nodeFor_eq p m missing
        rw [heq] at hf
        rcases CallGraph.methodOf?_addNode hf with hf | ⟨-, rfl, -⟩
        · exact hb.graph.method hf
        · exact hm
      sites := hgrows.sites.trans hb.graph.sites
      dynSites := hgrows.dynSites.trans hb.graph.dynSites
      label := fun h => hb.graph.label (h.congr (CallGraph.edges_nodeFor ..))
      callee := fun site hsite => Nat.lt_of_lt_of_le (hb.graph.callee site hsite) hgrows.size }
    exact hb.grow hexp hb.pag (fun hx => Or.inl (Pag.node?_lt hx)) (hb.properItems hexp) hgrown
      Or.inl Or.inl Or.inl Or.inl Or.inl Or.inl
  · exact Builder.Confined.func_of_methodOf? (b.graph.methodOf?_nodeFor p m missing)

theorem addCall_keepsConfined {src dst : FuncId} {stmt : StmtId} {kind : CallKind}
    (hstmt : stmt < p.stmts.size) :
    Spec (KeepsConfined p g) (addCall src dst stmt kind) b fun _ _ => True := by
  have hgrows := b.graph.addCall_grows src dst stmt kind
  have hexp : b.LogsOnlyNew { b with graph := (b.graph.addCall src dst stmt kind).2 } :=
    .of_same .rfl hgrows .rfl rfl rfl rfl
  refine ⟨⟨fun hb => ?_, hexp⟩, trivial⟩
  have hgrown : g.GrownFrom p (b.graph.addCall src dst stmt kind).2 := {
    consistent := hb.graph.consistent.addCall
    method := fun {f m} hf => by
      rw [CallGraph.methodOf?_congr (CallGraph.nodes_addCall ..)] at hf
      exact hb.graph.method hf
    sites := hgrows.sites.trans hb.graph.sites
    dynSites := hgrows.dynSites.trans hb.graph.dynSites
    label := fun h => (CallGraph.labels_addCall _ _ _ _ _ h).elim hb.graph.label
      fun h => Or.inr (h ▸ hstmt)
    callee := fun site hsite => Nat.lt_of_lt_of_le (hb.graph.callee site hsite) hgrows.size }
  exact hb.grow hexp hb.pag (fun hx => Or.inl (Pag.node?_lt hx)) (hb.properItems hexp) hgrown
    Or.inl Or.inl Or.inl Or.inl Or.inl Or.inl

/-- A table that is proper takes the place of the old one. -/
theorem keepsConfined_contexts {t : ContextTable} (ht : b.contexts.Extends t)
    (hproper : b.Confined p g → t.Proper (b.HasItem g)) :
    KeepsConfined p g b { b with contexts := t } := by
  have hexp : b.LogsOnlyNew { b with contexts := t } := .of_same .rfl .rfl ht rfl rfl rfl
  refine ⟨fun hb => ?_, hexp⟩
  exact hb.grow hexp hb.pag (fun hx => Or.inl (Pag.node?_lt hx)) ((hproper hb).mono hexp.hasItem)
    hb.graph Or.inl Or.inl Or.inl Or.inl Or.inl Or.inl

theorem entryContext_keepsConfined (hb : b.Confined p g) {f : FuncId}
    (hf : f < b.graph.nodes.size) :
    Spec (KeepsConfined p g) (entryContext f) b fun cid b' => b'.HasContext cid := by
  refine ⟨keepsConfined_contexts (b.contexts.entry_extends f) fun hb => ?_, ?_⟩
  · exact hb.contexts.entry fun hs => ⟨hs, hf⟩
  · exact hb.contexts.context?_entry f

theorem selectContext_keepsConfined (hb : b.Confined p g) {caller : ContextId} {site : CallSiteId}
    {obj : Option NodeId} {callee : FuncId} (hcaller : b.HasContext caller)
    (hsite : g.HasId site) (hobj : ∀ o, obj = some o → b.pag.isObject o = true)
    (hcallee : callee < b.graph.nodes.size) :
    Spec (KeepsConfined p g) (selectContext caller site obj callee) b fun cid b' =>
      b'.HasContext cid := by
  refine ⟨keepsConfined_contexts (b.contexts.select_extends caller site obj callee)
    fun hb => ?_, ?_⟩
  · exact hb.contexts.select (fun hs => ⟨hs, hsite, hcallee⟩) (fun o ho hs => ⟨hs, hobj o ho⟩)
      fun hs => ⟨hs, hcallee⟩
  · exact hb.contexts.context?_select hcaller

theorem addUnhandled_keepsConfined {m : MethodSig} :
    Spec (KeepsConfined p g) (addUnhandled m) b fun _ _ => True := by
  refine .modify ?_ trivial
  split
  · exact refl_of (KeepsConfined p g) b
  · exact keepsConfined_note Or.inl Or.inl

/-! ## Links -/

theorem link_keepsConfined {v : ValueId} {target : NodeId} {kind : EdgeKind} (hv : p.Mentions v)
    (htarget : target < b.pag.nodes.size) :
    Spec (KeepsConfined p g) (link v target kind) b fun _ _ => True := by
  refine .get_bind ?_
  split
  · exact .pure trivial
  · refine .set_bind (keepsConfined_note Or.inl fun {l} hl => ?_) ?_
    · rcases List.mem_append.1 hl with hl | hl
      · exact Or.inl hl
      · cases List.mem_singleton.1 hl
        exact Or.inr ⟨hv, htarget⟩
    · exact .forM_any fun _ _ _ _ => .discard addEdge_keepsConfined

theorem onNewNode_keepsConfined {n : NodeId} {e : Entity} (hn : n < b.pag.nodes.size) :
    Spec (KeepsConfined p g) (onNewNode p n e) b fun _ _ => True := by
  have coming : ∀ (v : ValueId) b₁, Spec (KeepsConfined p g) (do
      ((← get).links.filter fun l => l.1 = v).forM fun l => discard (addEdge l.2.1 n l.2.2))
      b₁ fun _ _ => True :=
    fun _ _ => .get_bind (.forM_any fun _ _ _ _ => .discard addEdge_keepsConfined)
  unfold onNewNode
  split
  · rename_i v
    dsimp only
    split
    · split
      · rename_i x hx
        exact .seq (link_keepsConfined (Program.mentions_of_captured? hx) hn) fun _ b₁ _ =>
          coming v b₁
      · exact coming v b
    · exact coming v b
  · exact .pure trivial

/-! ## Nodes -/

/-- The node is that of the entity. -/
def StandsFor (b : Builder) (n : NodeId) (e : Entity) : Prop :=
  ∃ x, b.pag.node? n = some x ∧ x.entity = e

theorem StandsFor.isOwner {n : NodeId} {e : Entity} (h : StandsFor b n e)
    (he : e.isObjField = false) : b.pag.IsOwner n := by
  obtain ⟨x, hx, rfl⟩ := h
  exact ⟨x, hx, he⟩

theorem standsFor_of_nodeIn? {cid : ContextId} {n : NodeId} {e : Entity}
    (h : nodeIn? b.pag cid e = some n) : StandsFor b n e :=
  exists_of_nodeIn? h

theorem StandsFor.lt {n : NodeId} {e : Entity} (h : StandsFor b n e) : n < b.pag.nodes.size := by
  obtain ⟨x, hx, -⟩ := h
  exact Pag.node?_lt hx

theorem StandsFor.mono {b' : Builder} {n : NodeId} {e : Entity} (h : StandsFor b n e)
    (hb : b.LogsOnlyNew b') : StandsFor b' n e := by
  obtain ⟨x, hx, rfl⟩ := h
  obtain ⟨x', hx', hgrow⟩ := hb.pag.node hx
  exact ⟨x', hx', hgrow.entity⟩

theorem nodeWithKind_keepsConfined {cid : ContextId} {e : Entity} {kind : NodeKind}
    (hc : b.HasContext cid) (hbelongs : b.pag.Belongs cid e) (he : b.HasEntity p e)
    (hk : b.HasKind p g e kind) :
    Spec (KeepsConfined p g) (nodeWithKind p cid e kind) b fun n b' => StandsFor b' n e := by
  have hadd := keepsConfined_addNode (Or.inl hc) hbelongs he hk
  have hfound : StandsFor { b with pag := (b.pag.addNode cid e kind).2 }
      (b.pag.addNode cid e kind).1.1 e := by
    obtain ⟨⟨x, hx, -, hentity⟩, -⟩ := Pag.find?_eq_some_iff.1 (b.pag.find?_addNode cid e kind)
    exact ⟨x, hx, hentity⟩
  unfold nodeWithKind
  refine .get_bind ?_
  generalize b.pag.addNode cid e kind = r at hadd hfound ⊢
  obtain ⟨⟨n, isNew⟩, pag⟩ := r
  refine .modify_bind hadd ?_
  dsimp only
  split
  · exact .seq (onNewNode_keepsConfined hfound.lt) fun _ b₁ h₁ => .pure (hfound.mono h₁.expands)
  · exact .pure hfound

/-- The node, if it is given, is there. -/
def IsNode? (b : Builder) (n : Option NodeId) : Prop :=
  ∀ m, n = some m → m < b.pag.nodes.size

theorem isNode?_none : IsNode? b none :=
  nofun

theorem isNode?_some {n : NodeId} (hn : n < b.pag.nodes.size) : IsNode? b (some n) := by
  rintro _ ⟨⟩
  exact hn

theorem IsNode?.mono {b' : Builder} {n : Option NodeId} (h : IsNode? b n) (hb : b.LogsOnlyNew b') :
    IsNode? b' n :=
  fun m hm => hb.pag.lt (h m hm)

theorem IsNode?.inRange {n : Option NodeId} (h : IsNode? b n) :
    ∀ i ∈ n.toList.map Index.node, i.InRange p b.pag.nodes.size := by
  intro i hi
  obtain ⟨m, hm, rfl⟩ := List.mem_map.1 hi
  exact h m (Option.mem_toList.1 hm)

/-- Kinds of which nothing has to be said. -/
theorem hasKind_plain {e : Entity} {kind : NodeKind} (hr : kind.reference? = none)
    (hf : kind.function? = none) (he : e.isObjField = false) (hn : ¬p.NamesFunction e) :
    b.HasKind p g e kind where
  key := fun hk => by rw [hr] at hk; cases hk
  object := fun _ => he
  function := fun hfn => by rw [hf] at hfn; cases hfn
  named := fun h => absurd h hn
  index := by
    cases kind with
    | reference => cases hr
    | function => cases hf
    | _ => exact fun i hi => absurd hi List.not_mem_nil

theorem hasKind_reference {e : Entity} {base : Option NodeId} {key : FieldKey}
    {cloneOf : Option NodeId} (hkey : p.HasKey key) (hbase : IsNode? b base)
    (hclone : IsNode? b cloneOf) (hn : ¬p.NamesFunction e) :
    b.HasKind p g e (.reference base key cloneOf) where
  key := fun hk => by cases hk; exact hkey
  object := nofun
  function := nofun
  named := fun h => absurd h hn
  index i hi := (List.mem_append.1 hi).elim (hbase.inRange i) (hclone.inRange i)

/-- The positions that a function object keeps. -/
theorem inRange_function {fn : FunctionObject}
    (hstmt : ∀ s, fn.bindStmt = some s → s < p.stmts.size)
    (hthis : IsNode? b fn.boundThis) (hargs : ∀ arg ∈ fn.boundArgs, arg.1 < b.pag.nodes.size) :
    ∀ i ∈ (NodeKind.function fn).indices, i.InRange p b.pag.nodes.size := by
  intro i hi
  rcases List.mem_append.1 hi with hi | hi
  · rcases List.mem_append.1 hi with hi | hi
    · obtain ⟨s, hs, rfl⟩ := List.mem_map.1 hi
      exact hstmt s (Option.mem_toList.1 hs)
    · exact hthis.inRange i hi
  · obtain ⟨arg, harg, rfl⟩ := List.mem_map.1 hi
    exact hargs arg harg

/-- What a function object has bound are nodes. -/
theorem boundNodes (hb : b.Confined p g) {obj : NodeId} {fn : FunctionObject}
    (hfn : b.pag.function? obj = some fn) :
    IsNode? b fn.boundThis ∧ ∀ arg ∈ fn.boundArgs, arg.1 < b.pag.nodes.size := by
  obtain ⟨x, hx, hkind⟩ := Option.bind_eq_some_iff.1 hfn
  obtain ⟨cid, e, kind, pts, sites⟩ := x
  cases kind with
  | function fn' =>
    cases hkind
    have hindex := (hb.node hx).kind.index
    refine ⟨fun n hn => ?_, fun arg harg => ?_⟩
    · exact hindex (.node n) (List.mem_append_left _ (List.mem_append_right _
        (List.mem_map_of_mem (Option.mem_toList.2 hn))))
    · exact hindex (.node arg.1) (List.mem_append_right _
        (List.mem_map_of_mem (f := fun arg => Index.node arg.1) harg))
  | _ => cases hkind

theorem kindOfValue_keepsConfined {baseNode : ValueId → Build (Option NodeId)} {v : ValueId}
    (hbase : ∀ base, p.Mentions base → Spec (KeepsConfined p g) (baseNode base) b fun n b' =>
      IsNode? b' n) :
    Spec (KeepsConfined p g) (kindOfValue p baseNode v) b fun kind b' =>
      b'.HasKind p g (.value v) kind := by
  have other : ∀ {value : Option Value}, p.value? v = value →
      (∀ m, value ≠ some (.functionRef m)) → ¬p.NamesFunction (.value v) := by
    rintro _ rfl h
    exact Program.not_namesFunction h
  unfold kindOfValue
  cases hv : p.value? v with
  | none => exact .pure (hasKind_plain rfl rfl rfl (other hv nofun))
  | some value =>
    cases value with
    | functionRef m =>
      have hm : p.NamesMethod g m := Program.namesMethod_of_value? hv rfl
      refine .bind (funcOf_keepsConfined hm) fun f b₁ _ hf =>
        .pure ⟨nofun, fun _ => rfl, ?_, fun _ => rfl, ?_⟩
      · rintro _ ⟨⟩
        exact ⟨hm, by rintro _ ⟨⟩; exact hf⟩
      · exact fun i hi => absurd hi List.not_mem_nil
    | fieldRef base field =>
      refine .bind (hbase base (Program.mentions_of_base? hv rfl)) fun n b₁ _ hn => .pure ?_
      exact hasKind_reference (Program.hasKey_of_value? hv rfl) hn isNode?_none (other hv nofun)
    | elementRef base index =>
      refine .bind (hbase base (Program.mentions_of_base? hv rfl)) fun n b₁ _ hn => .pure ?_
      exact hasKind_reference (Or.inl rfl) hn isNode?_none (other hv nofun)
    | staticRef | captured =>
      exact .pure (hasKind_reference (Program.hasKey_of_value? hv rfl) isNode?_none isNode?_none
        (other hv nofun))
    | localVar | constant | newObject | newArray | globalThis | param | thisRef | cast | compute
    | invoke => exact .pure (hasKind_plain rfl rfl rfl (other hv nofun))

theorem kindOf_keepsConfined {baseNode : ValueId → Build (Option NodeId)}
    {e : Entity} (he : p.Names e)
    (hbase : ∀ base, p.Mentions base → Spec (KeepsConfined p g) (baseNode base) b fun n b' =>
      IsNode? b' n) :
    Spec (KeepsConfined p g) (kindOf p baseNode e) b fun kind b' => b'.HasKind p g e kind := by
  cases e with
  | value v => exact kindOfValue_keepsConfined hbase
  | staticField field =>
    exact .pure (hasKind_reference (Or.inr ⟨_, he, rfl⟩) isNode?_none isNode?_none id)
  | globalThis | exported | sdkReturn | modelSlot => exact .pure (hasKind_plain rfl rfl rfl id)
  | objField | boundFunction => exact absurd he id

theorem hasContext_contextOf (hb : b.Confined p g) {cid : ContextId} {e : Entity}
    (he : p.Names e) (hc : b.HasContext cid) : b.HasContext (contextOf b.pag cid e) := by
  cases e with
  | objField obj key => exact absurd he id
  | staticField | globalThis | exported => exact hb.hasContext_root
  | value | boundFunction | sdkReturn | modelSlot => exact hc

/-- What is not a field is put where it belongs, whatever there is in the graph. -/
theorem belongs_contextOf {e : Entity} (he : e.isObjField = false) (h h' : Pag) (cid : ContextId) :
    h'.Belongs (contextOf h cid e) e := by
  cases e with
  | staticField | globalThis | exported => exact ⟨fun _ => rfl, nofun⟩
  | objField => cases he
  | value | boundFunction | sdkReturn | modelSlot => exact Pag.belongs_of_plain id rfl

theorem isObjField_of_names {e : Entity} (he : p.Names e) : e.isObjField = false := by
  cases e with
  | objField => exact absurd he id
  | _ => rfl

theorem hasEntity_of_names {e : Entity} (he : p.Names e) : b.HasEntity p e := by
  cases e with
  | objField | boundFunction => exact absurd he id
  | _ => exact he

theorem obtain_locates (hb : b.Confined p g)
    {baseNode : ContextId → ValueId → Build (Option NodeId)} {cid : ContextId} {e : Entity}
    (hc : b.HasContext cid) (he : p.Names e)
    (hbase : ∀ cid base, b.HasContext cid → p.Mentions base →
      Spec (KeepsConfined p g) (baseNode cid base) b fun n b' => IsNode? b' n) :
    Spec (KeepsConfined p g) (obtain p baseNode cid e) b fun n b' => StandsFor b' n e := by
  have hc' := hasContext_contextOf hb he hc
  unfold obtain
  refine .get_bind ?_
  dsimp only
  split
  · rename_i n hn
    exact .pure (standsFor_of_nodeIn? hn)
  · refine .bind (kindOf_keepsConfined he fun base hbase' => hbase _ base hc' hbase')
      fun kind b₁ h₁ hk => ?_
    exact nodeWithKind_keepsConfined (h₁.expands.hasContext hc')
      (belongs_contextOf (isObjField_of_names he) ..) (hasEntity_of_names he) hk

theorem nodeWithin_locates (hb : b.Confined p g) (depth : Nat) {cid : ContextId} {e : Entity}
    (hc : b.HasContext cid) (he : p.Names e) :
    Spec (KeepsConfined p g) (nodeWithin p depth cid e) b fun n b' => StandsFor b' n e := by
  induction depth generalizing b cid e with
  | zero => exact obtain_locates hb hc he fun _ _ _ _ => .pure isNode?_none
  | succ depth ih =>
    refine obtain_locates hb hc he fun cid base hc' hbase => .map ?_
    exact (ih hb hc' (Program.names_entityOf hbase)).mono fun n b₁ _ hn => isNode?_some hn.lt

/-- Afterwards the node is there. -/
theorem nodeOf_locates (hb : b.Confined p g) {cid : ContextId} {e : Entity} (hc : b.HasContext cid)
    (he : p.Names e) :
    Spec (KeepsConfined p g) (nodeOf p cid e) b fun n b' => StandsFor b' n e :=
  nodeWithin_locates hb (depth e) hc he

theorem nodeOf_keepsConfined (hb : b.Confined p g) {cid : ContextId}
    {e : Entity} (hc : b.HasContext cid)
    (he : p.Names e) : Spec (KeepsConfined p g) (nodeOf p cid e) b fun _ _ => True :=
  (nodeOf_locates hb hc he).any

theorem valueNode_locates (hb : b.Confined p g) {cid : ContextId} {v : ValueId}
    (hc : b.HasContext cid) (hv : p.Mentions v) :
    Spec (KeepsConfined p g) (valueNode p cid v) b fun n b' => b'.pag.IsOwner n :=
  (nodeOf_locates hb hc (Program.names_entityOf hv)).mono fun _ _ _ hn =>
    hn.isOwner (isObjField_of_isPlain (entityOf_isPlain p v))

theorem valueNode_keepsConfined (hb : b.Confined p g) {cid : ContextId} {v : ValueId}
    (hc : b.HasContext cid) (hv : p.Mentions v) :
    Spec (KeepsConfined p g) (valueNode p cid v) b fun _ _ => True :=
  (valueNode_locates hb hc hv).any

theorem fieldNode_keepsConfined (hb : b.Confined p g) {obj : NodeId} {key : FieldKey}
    {cloneOf : Option NodeId} (hobj : b.pag.IsOwner obj) (hkey : p.HasKey key)
    (hclone : IsNode? b cloneOf) :
    Spec (KeepsConfined p g) (fieldNode obj key cloneOf) b fun _ _ => True := by
  exact ⟨keepsConfined_addNode (hb.hasPlace_fieldContext obj key) (Pag.belongs_field hobj.lt)
    ⟨hkey, hobj⟩ (hasKind_reference hkey (isNode?_some hobj.lt) hclone id), trivial⟩

/-- Afterwards the nodes are there. -/
theorem argNodes_locates (hb : b.Confined p g) {cid : ContextId} (hc : b.HasContext cid)
    (args : List ValueId) (index : Nat) :
    Spec (KeepsConfined p g) (argNodes p cid args index) b fun ns b' =>
      ∀ x ∈ ns, x.1 < b'.pag.nodes.size := by
  induction args generalizing b index with
  | nil => exact .pure fun x hx => absurd hx List.not_mem_nil
  | cons a args ih =>
    unfold argNodes
    split
    · rename_i hlocal
      refine .bind (valueNode_locates hb hc (Program.mentions_of_isLocal hlocal))
        fun n b₁ h₁ hn => ?_
      refine .bind (ih (h₁.confined hb) (h₁.expands.hasContext hc) _)
        fun ns b₂ h₂ hns => .pure fun x hx => ?_
      rcases List.mem_cons.1 hx with rfl | hx
      · exact h₂.expands.pag.lt hn.lt
      · exact hns x hx
    · exact ih hb hc _

theorem argNodes_keepsConfined (hb : b.Confined p g) {cid : ContextId} (hc : b.HasContext cid)
    (args : List ValueId) (index : Nat) :
    Spec (KeepsConfined p g) (argNodes p cid args index) b fun _ _ => True :=
  (argNodes_locates hb hc args index).any

end PointsTo.Build
