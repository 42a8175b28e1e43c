import PointsTo.Proofs.Builder.Steps
import PointsTo.Proofs.Effects

/-!
# Requests to the builder

Every request is a sequence of steps of the builder, and what it answers is in place then: the node
that was asked for is found, the call that was registered waits, the method has its node in the call
graph.
-/

namespace PointsTo.Build

open Builder (Steps)

variable {p : Program} {b : Builder}

/-! ## Single steps -/

theorem addEdge_spec {kind : EdgeKind} {src dst : NodeId}
    (object : kind = .address → b.pag.isObject src = true) :
    Spec (Steps p) (addEdge kind src dst) b fun _ _ => True :=
  ⟨.of_step (.edge kind src dst object), trivial⟩

/-- Edges other than `address` can be drawn anywhere. -/
theorem addCopyEdge_spec {kind : EdgeKind} {src dst : NodeId} (hk : kind ≠ .address) :
    Spec (Steps p) (addEdge kind src dst) b fun _ _ => True :=
  addEdge_spec fun h => absurd h hk

theorem addSite_spec {n : NodeId} {site : SiteRef} (hn : n < b.pag.nodes.size) :
    Spec (Steps p) (addSite n site) b fun _ b' => site ∈ b'.pag.sitesOf n := by
  refine ⟨.of_step (.site n site), ?_⟩
  rw [Builder.run_addSite]
  exact b.pag.mem_sitesOf_of_addSite n site hn

theorem funcOf_spec {m : MethodSig} {missing : FuncKind} :
    Spec (Steps p) (funcOf p m missing) b fun f b' => b'.graph.methodOf? f = some m :=
  ⟨.of_step (.func m missing), b.graph.methodOf?_nodeFor p m missing⟩

theorem addCall_spec {src dst : FuncId} {stmt : StmtId} {kind : CallKind} :
    Spec (Steps p) (addCall src dst stmt kind) b fun _ b' => b'.graph.Calls src dst kind stmt :=
  ⟨.of_step (.call src dst stmt kind), b.graph.calls_addCall src dst stmt kind⟩

theorem entryContext_spec {f : FuncId} : Spec (Steps p) (entryContext f) b fun _ _ => True :=
  ⟨.of_step (.note _ b.pending b.singletons b.unhandled), trivial⟩

theorem selectContext_spec {caller : ContextId} {site : CallSiteId} {obj : Option NodeId}
    {callee : FuncId} : Spec (Steps p) (selectContext caller site obj callee) b fun _ _ => True :=
  ⟨.of_step (.note _ b.pending b.singletons b.unhandled), trivial⟩

theorem addUnhandled_spec {m : MethodSig} :
    Spec (Steps p) (addUnhandled m) b fun _ _ => True := by
  refine .modify ?_ trivial
  split
  · exact refl_of (Steps p) b
  · exact .of_step (.note b.contexts b.pending b.singletons _)

/-! ## Links -/

theorem link_spec {v : ValueId} {target : NodeId} {kind : EdgeKind} (hk : kind ≠ .address) :
    Spec (Steps p) (link v target kind) b fun _ _ => True := by
  refine .get_bind ?_
  split
  · exact .pure trivial
  · refine .set_bind (.of_step (.link v kind target hk)) ?_
    exact .forM_any fun _ _ _ _ => .discard (addCopyEdge_spec hk)

theorem onNewNode_spec (hb : b.Sound p) {n : NodeId} {e : Entity} :
    Spec (Steps p) (onNewNode p n e) b fun _ _ => True := by
  unfold onNewNode
  split
  · rename_i v
    have coming : ∀ b₁, Steps p b b₁ → Spec (Steps p) (do
        ((← get).links.filter fun l => l.1 = v).forM fun l => discard (addEdge l.2.1 n l.2.2))
        b₁ fun _ _ => True := by
      intro b₁ h₁
      refine .get_bind (.forM_any fun l hl b₂ _ => .discard (addCopyEdge_spec ?_))
      exact (h₁.sound hb).link (List.mem_filter.1 hl).1
    dsimp only
    split
    · split
      · exact .seq (link_spec (by decide)) fun _ b₁ h₁ => coming b₁ h₁
      · exact coming b (refl_of (Steps p) b)
    · exact coming b (refl_of (Steps p) b)
  · exact .pure trivial

/-! ## Nodes -/

theorem nodeWithKind_spec (hb : b.Sound p) {cid : ContextId} {e : Entity} {kind : NodeKind}
    (fits : b.Fits p e kind) :
    Spec (Steps p) (nodeWithKind p cid e kind) b fun n b' => b'.pag.find? cid e = some n := by
  have hstep := Builder.Step.node cid e kind fits
  have hfound := b.pag.find?_addNode cid e kind
  unfold nodeWithKind
  refine .get_bind ?_
  generalize b.pag.addNode cid e kind = r at hstep hfound ⊢
  obtain ⟨⟨n, isNew⟩, pag⟩ := r
  refine .modify_bind (.of_step hstep) ?_
  dsimp only
  split
  · refine .seq (onNewNode_spec (hstep.sound hb)) fun _ b₁ h₁ => ?_
    exact .pure (h₁.grows.pag.find? hfound)
  · exact .pure hfound

/-! ## Nodes on request -/

/-- The node of an entity for a method in context `cid`. -/
def nodeIn? (g : Pag) (cid : ContextId) (e : Entity) : Option NodeId :=
  g.find? (contextOf g cid e) e

theorem contextOf_eq {e : Entity} (he : e.IsPlain) (g g' : Pag) (cid : ContextId) :
    contextOf g cid e = contextOf g' cid e := by
  cases e with
  | objField => exact absurd he id
  | _ => rfl

theorem nodeIn?_mono {e : Entity} (he : e.IsPlain) {g g' : Pag} (hg : g.Extends g')
    {cid : ContextId} {n : NodeId} (h : nodeIn? g cid e = some n) : nodeIn? g' cid e = some n := by
  unfold nodeIn? at h ⊢
  rw [← contextOf_eq he g g' cid]
  exact hg.find? h

theorem exists_of_nodeIn? {g : Pag} {cid : ContextId} {e : Entity} {n : NodeId}
    (h : nodeIn? g cid e = some n) : ∃ node, g.node? n = some node ∧ node.entity = e := by
  obtain ⟨⟨node, hn, -, he⟩, -⟩ := Pag.find?_eq_some_iff.1 h
  exact ⟨node, hn, he⟩

theorem lt_of_nodeIn? {g : Pag} {cid : ContextId} {e : Entity} {n : NodeId}
    (h : nodeIn? g cid e = some n) : n < g.nodes.size := by
  obtain ⟨node, hn, -⟩ := exists_of_nodeIn? h
  exact Pag.node?_lt hn

/-- What stands for an object is one. -/
theorem isObject_of_nodeIn? (hb : b.Sound p) {cid : ContextId} {e : Entity} {n : NodeId}
    (h : nodeIn? b.pag cid e = some n) (he : e.IsObject p) : b.pag.isObject n = true := by
  obtain ⟨node, hn, rfl⟩ := exists_of_nodeIn? h
  exact Pag.isObject_iff.2 ⟨node, hn, (hb.fits hn).object he⟩

theorem entityOf_isPlain (p : Program) (v : ValueId) : (entityOf p v).IsPlain := by
  unfold entityOf
  split <;> trivial

theorem isObjField_of_isPlain {e : Entity} (he : e.IsPlain) : e.isObjField = false := by
  cases e with
  | objField => exact absurd he id
  | _ => rfl

/-- The node that an access is read through, if there is one, is no field of an object. -/
def IsBase (b : Builder) (base : Option NodeId) : Prop :=
  ∀ n, base = some n → ∃ node, b.pag.node? n = some node ∧ node.entity.isObjField = false

theorem isBase_of_nodeIn? {cid : ContextId} {e : Entity} {n : NodeId} (he : e.IsPlain)
    (h : nodeIn? b.pag cid e = some n) : IsBase b (some n) := by
  rintro _ ⟨⟩
  obtain ⟨node, hn, rfl⟩ := exists_of_nodeIn? h
  exact ⟨node, hn, isObjField_of_isPlain he⟩

/-- An access fits anything that is no object. -/
theorem fits_reference {e : Entity} {base : Option NodeId} {key : FieldKey}
    {cloneOf : Option NodeId} (hbase : IsBase b base) (he : ¬e.IsObject p) :
    b.Fits p e (.reference base key cloneOf) where
  object := fun h => absurd h he
  base := fun {n key'} hk _ => by
    cases hk
    exact hbase n rfl
  func := fun hk => nomatch hk
  bound := fun hbound => absurd (hbound ▸ trivial) he

/-- A kind that is neither an access nor a function fits if it is an object where it has to be. -/
theorem fits_of_object {e : Entity} {kind : NodeKind} (he : ∀ {stmt n}, e ≠ .boundFunction stmt n)
    (hr : kind.reference? = none) (hf : kind.function? = none)
    (ho : e.IsObject p → kind.isObject = true) : b.Fits p e kind where
  object := ho
  base := fun hk => by rw [hr] at hk; cases hk
  func := fun hk => by rw [hk] at hf; cases hf
  bound := fun hbound => absurd hbound he

theorem kindOfValue_spec {baseNode : ValueId → Build (Option NodeId)} (v : ValueId)
    (hbase : ∀ base, Spec (Steps p) (baseNode base) b fun n b' => IsBase b' n) :
    Spec (Steps p) (kindOfValue p baseNode v) b fun kind b' => b'.Fits p (.value v) kind := by
  -- Where the value is no allocation, nothing is asked of an object.
  have notObject : ∀ {value : Value}, p.value? v = some value → value.isAllocation = false →
      ¬(Entity.value v).IsObject p := by
    intro value hv ha h
    simp [Entity.IsObject, hv, ha] at h
  unfold kindOfValue
  cases hv : p.value? v with
  | none => exact .pure (fits_of_object nofun rfl rfl fun h => by simp [Entity.IsObject, hv] at h)
  | some value =>
    cases value with
    | newObject | newArray | globalThis => exact .pure (fits_of_object nofun rfl rfl fun _ => rfl)
    | functionRef m =>
      refine .bind funcOf_spec fun f b₁ _ hf => .pure ⟨fun _ => rfl, (nomatch ·), ?_, nofun⟩
      rintro _ _ ⟨⟩ ⟨⟩
      exact hf
    | fieldRef base | elementRef base =>
      exact .bind (hbase base) fun n b₁ _ hn => .pure (fits_reference hn (notObject hv rfl))
    | staticRef | captured =>
      exact .pure (fits_reference (fun _ h => nomatch h) (notObject hv rfl))
    | localVar | constant | param | thisRef | cast | compute | invoke =>
      exact .pure (fits_of_object nofun rfl rfl fun h => absurd h (notObject hv rfl))

theorem kindOf_spec {baseNode : ValueId → Build (Option NodeId)} {e : Entity} (he : e.IsPlain)
    (hbase : ∀ base, Spec (Steps p) (baseNode base) b fun n b' => IsBase b' n) :
    Spec (Steps p) (kindOf p baseNode e) b fun kind b' => b'.Fits p e kind := by
  cases e with
  | value v => exact kindOfValue_spec v hbase
  | staticField field => exact .pure (fits_reference (fun _ h => nomatch h) id)
  | globalThis | sdkReturn => exact .pure (fits_of_object nofun rfl rfl fun _ => rfl)
  | exported => exact .pure (fits_of_object nofun rfl rfl fun h => absurd h id)
  | modelSlot owner key => exact .pure (fits_of_object nofun rfl rfl fun h => absurd h he)
  | objField | boundFunction => exact absurd he id

theorem obtain_spec (hb : b.Sound p) {baseNode : ContextId → ValueId → Build (Option NodeId)}
    {cid : ContextId} {e : Entity} (he : e.IsPlain)
    (hbase : ∀ cid base, Spec (Steps p) (baseNode cid base) b fun n b' => IsBase b' n) :
    Spec (Steps p) (obtain p baseNode cid e) b fun n b' => nodeIn? b'.pag cid e = some n := by
  unfold obtain
  refine .get_bind ?_
  dsimp only
  split
  · rename_i n hn
    exact .pure hn
  · refine .bind (kindOf_spec he (hbase _)) fun kind b₁ h₁ hk => ?_
    refine (nodeWithKind_spec (h₁.sound hb) hk).mono fun n b₂ _ hn => ?_
    unfold nodeIn?
    rw [contextOf_eq he b₂.pag b.pag cid]
    exact hn

theorem nodeWithin_spec (hb : b.Sound p) (depth : Nat) {cid : ContextId} {e : Entity}
    (he : e.IsPlain) :
    Spec (Steps p) (nodeWithin p depth cid e) b fun n b' => nodeIn? b'.pag cid e = some n := by
  induction depth generalizing b cid e with
  | zero => exact obtain_spec hb he fun _ _ => .pure fun _ h => nomatch h
  | succ depth ih =>
    refine obtain_spec hb he fun cid base => .map ?_
    refine (ih hb (entityOf_isPlain p base)).mono fun n b₁ _ hn => ?_
    exact isBase_of_nodeIn? (entityOf_isPlain p base) hn

theorem nodeOf_spec (hb : b.Sound p) {cid : ContextId} {e : Entity} (he : e.IsPlain) :
    Spec (Steps p) (nodeOf p cid e) b fun n b' => nodeIn? b'.pag cid e = some n :=
  nodeWithin_spec hb (depth e) he

theorem valueNode_spec (hb : b.Sound p) {cid : ContextId} {v : ValueId} :
    Spec (Steps p) (valueNode p cid v) b fun n b' => nodeIn? b'.pag cid (entityOf p v) = some n :=
  nodeOf_spec hb (entityOf_isPlain p v)

theorem fieldNode_spec {obj : NodeId} {key : FieldKey} {cloneOf : Option NodeId} :
    Spec (Steps p) (fieldNode obj key cloneOf) b fun _ _ => True := by
  have hfits : b.Fits p (.objField obj key) (.reference (some obj) key cloneOf) :=
    ⟨fun h => absurd h id, fun _ he => (nomatch he), (nomatch ·), nofun⟩
  exact ⟨.of_step (.node _ _ _ hfits), trivial⟩

/-- Afterwards the field has its node. -/
theorem fieldNode?_run {obj : NodeId} (hobj : obj < b.pag.nodes.size) (key : FieldKey)
    (cloneOf : Option NodeId) :
    ((fieldNode obj key cloneOf).run b).2.pag.fieldNode? obj key =
      some ((fieldNode obj key cloneOf).run b).1 := by
  have hg := b.pag.addNode_extends (b.pag.fieldContext obj) (.objField obj key)
    (.reference (some obj) key cloneOf)
  have hctx : ((fieldNode obj key cloneOf).run b).2.pag.fieldContext obj = b.pag.fieldContext obj :=
    hg.fieldContext hobj
  unfold Pag.fieldNode?
  rw [hctx]
  exact b.pag.find?_addNode _ _ _

theorem argNodes_spec (hb : b.Sound p) {cid : ContextId} (args : List ValueId) (index : Nat) :
    Spec (Steps p) (argNodes p cid args index) b fun _ _ => True := by
  induction args generalizing b index with
  | nil => exact .pure trivial
  | cons a args ih =>
    unfold argNodes
    split
    · refine .seq (valueNode_spec hb).any fun n b₁ h₁ => ?_
      exact .seq (ih (h₁.sound hb) _) fun _ _ _ => .pure trivial
    · exact ih hb _

end PointsTo.Build
