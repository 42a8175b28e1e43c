import PointsTo.Builder.Connect
import PointsTo.Proofs.Actions.States
import PointsTo.Proofs.Links.Requests

/-!
# Requests are sequences of actions

Whatever the builder is asked for, and whether it succeeds or not, all it does are actions. What a
request names is a place of the program, a parameter or a receiver, so it is not one of the objects
that are only assigned. Those are named by summaries alone.

A callee is entered in the context of its call, so finding the context and entering the callee are
taken as one (`enterCallee`), and it is left open how a callee is entered (`Enter.ByActions`).
-/

namespace PointsTo

open Builder (Action Actions Origin)

variable {p : Program} {b b' : Builder} {cid : ContextId}

/-! ## What requests name -/

namespace Program

variable {v w : ValueId} {m : MethodSig}

theorem not_onlyAssigned_of_defValue? {id : StmtId}
    (h : (p.stmt? id).bind Stmt.defValue? = some v) : ¬p.OnlyAssigned v := fun hv => by
  obtain ⟨stmt, hstmt, hdef⟩ := Option.bind_eq_some_iff.1 h
  exact hv.target stmt (Array.mem_of_getElem? hstmt) hdef

theorem not_onlyAssigned_of_base? {value : Value} (hw : p.value? w = some value)
    (h : value.base? = some v) : ¬p.OnlyAssigned v :=
  fun hv => hv.base value (Array.mem_of_getElem? hw) h

theorem not_onlyAssigned_of_invoke {id : StmtId} {i : Invoke} (h : p.invokeOf? id = some i)
    (hbase : i.base = some v) : ¬p.OnlyAssigned v :=
  fun hv => hv.base (.invoke i) (mem_values_of_invokeOf? h) hbase

/-- The left side of an assignment. -/
theorem not_onlyAssigned_of_assignments {a : ValueId × ValueId} (h : a ∈ p.assignments m) :
    ¬p.OnlyAssigned a.1 := by
  obtain ⟨id, -, hid⟩ := List.mem_filterMap.1 h
  split at hid
  · rename_i left right hkind
    cases hid
    exact not_onlyAssigned_of_defValue? (defValue?_of_assign hkind)
  · cases hid

theorem not_onlyAssigned_of_thisRef? (h : p.thisRef? m = some v) : ¬p.OnlyAssigned v := by
  obtain ⟨a, ha, rfl⟩ := Option.map_eq_some_iff.1 h
  obtain ⟨value, hvalue, hread⟩ :=
    Option.any_eq_true _ _ |>.1 (List.mem_filter.1 (List.mem_of_mem_head? ha)).2
  refine not_onlyAssigned hvalue ?_
  cases value with
  | thisRef => rfl
  | _ => cases hread

theorem not_onlyAssigned_of_thisLocal? (h : p.thisLocal? m = some v) : ¬p.OnlyAssigned v := by
  unfold thisLocal? at h
  split at h
  · rename_i left right hreads
    cases h
    have hmem : (v, right) ∈ p.receiverReads m := hreads ▸ List.mem_singleton_self _
    exact not_onlyAssigned_of_assignments (List.mem_filter.1 hmem).1
  · cases h

theorem not_onlyAssigned_of_params {param : Nat × ValueId} (h : param ∈ p.params m) :
    ¬p.OnlyAssigned param.2 := by
  obtain ⟨a, -, ha⟩ := List.mem_filterMap.1 (List.mem_mergeSort.1 h)
  split at ha
  · rename_i hv
    cases ha
    exact not_onlyAssigned hv rfl
  · cases ha

theorem not_onlyAssigned_of_returnValues (h : v ∈ p.returnValues m) : ¬p.OnlyAssigned v := by
  obtain ⟨id, -, hid⟩ := List.mem_filterMap.1 h
  split at hid
  · split at hid
    · rename_i hlocal
      cases hid
      exact not_onlyAssigned_of_isLocal hlocal
    · cases hid
  · cases hid

/-- Plain copies lead from locals to locals. -/
theorem not_onlyAssigned_dealias (h : ¬p.OnlyAssigned v) : ¬p.OnlyAssigned (p.dealias v) := by
  rcases p.dealias_eq_or_isLocal v with heq | hlocal
  · rw [heq]
    exact h
  · exact not_onlyAssigned_of_isLocal hlocal

end Program

namespace Build

/-! ## The graph -/

theorem actions_draw {pag : Pag} {newEdges : Array FlowEdge} {newSites : Array (NodeId × SiteRef)}
    (h : b.pag.Extends pag) (size : pag.nodes.size = b.pag.nodes.size) :
    Actions p b { b with pag, newEdges, newSites } :=
  .of_action (.draw pag b.links newEdges newSites h size)

theorem addEdge_actions {kind : EdgeKind} {src dst : NodeId} :
    Guarantees (Actions p) (addEdge kind src dst) := by
  intro b
  rw [Builder.run_addEdge]
  exact actions_draw (b.pag.addEdge_extends kind src dst) (by rw [Pag.nodes_addEdge])

theorem addSite_actions {n : NodeId} {site : SiteRef} :
    Guarantees (Actions p) (addSite n site) := by
  intro b
  rw [Builder.run_addSite]
  exact actions_draw (b.pag.addSite_extends n site) (Pag.size_addSite ..)

theorem funcOf_actions {m : MethodSig} {missing : FuncKind} :
    Guarantees (Actions p) (funcOf p m missing) :=
  fun b => .of_action (.graph _ (b.graph.nodeFor_grows p m missing) CallGraph.Consistent.nodeFor
    (CallGraph.entries_nodeFor ..))

theorem funcOf_names {m : MethodSig} {missing : FuncKind} :
    Spec (Actions p) (funcOf p m missing) b fun f b' => b'.graph.methodOf? f = some m :=
  ⟨funcOf_actions b, b.graph.methodOf?_nodeFor p m missing⟩

theorem addCall_actions {src dst : FuncId} {stmt : StmtId} {kind : CallKind} :
    Guarantees (Actions p) (addCall src dst stmt kind) :=
  fun b => .of_action (.graph _ (b.graph.addCall_grows src dst stmt kind)
    CallGraph.Consistent.addCall (CallGraph.entries_addCall ..))

theorem addUnhandled_actions {m : MethodSig} : Guarantees (Actions p) (addUnhandled m) := by
  intro b
  show Actions p b (if _ then _ else _)
  split
  · exact refl_of (Actions p) b
  · exact .of_action (.unhandled _)

theorem link_actions {v : ValueId} {target : NodeId} {kind : EdgeKind} :
    Guarantees (Actions p) (link v target kind) := by
  intro b
  have h : Spec (Actions p) (link v target kind) b fun _ _ => True := by
    refine .get_bind ?_
    split
    · exact .pure trivial
    · refine .set_bind (.of_action (.draw b.pag _ b.newEdges b.newSites .rfl rfl)) ?_
      exact .forM_any fun _ _ _ _ => .discard addEdge_actions.spec
  exact h.1

theorem onNewNode_actions {n : NodeId} {e : Entity} : Guarantees (Actions p) (onNewNode p n e) := by
  have coming : ∀ v : ValueId, Guarantees (Actions p) (do
      ((← get).links.filter fun l => l.1 = v).forM fun l => discard (addEdge l.2.1 n l.2.2)) :=
    fun v => .bind .get fun _ => .forM fun _ _ => .discard addEdge_actions
  unfold onNewNode
  split
  · dsimp only
    split
    · split
      · exact .bind link_actions fun _ => coming _
      · exact coming _
    · exact coming _
  · exact .pure

theorem nodeWithKind_actions {e : Entity} {kind : NodeKind} (origin : b.Origin p cid e)
    (function : ∀ fn, kind = .function fn → p.MakesFunction b.pag cid e fn) :
    Spec (Actions p) (nodeWithKind p cid e kind) b fun _ _ => True := by
  have hact := Action.node cid e kind origin function
  unfold nodeWithKind
  refine .get_bind ?_
  generalize b.pag.addNode cid e kind = r at hact ⊢
  obtain ⟨⟨n, isNew⟩, pag⟩ := r
  refine .modify_bind (.of_action hact) ?_
  dsimp only
  split
  · refine .seq onNewNode_actions.spec fun _ _ _ => ?_
    exact .pure trivial
  · exact .pure trivial

theorem fieldNode_actions {obj : NodeId} {key : FieldKey} {cloneOf : Option NodeId} :
    Guarantees (Actions p) (fieldNode obj key cloneOf) :=
  fun _ => .of_action (.node _ _ _ (.of_ne nofun) nofun)

/-- Whether the builder asks for other nodes depends on the entity alone. The only entities that
turn out to be functions are those that the program names. -/
theorem kindOf_actions {baseNode : ValueId → Build (Option NodeId)}
    (hbase : ∀ v, ¬p.OnlyAssigned v → Guarantees (Actions p) (baseNode v)) (e : Entity) :
    Spec (Actions p) (kindOf p baseNode e) b fun kind b' =>
      ∀ cid fn, kind = .function fn → p.MakesFunction b'.pag cid e fn := by
  cases e with
  | value v =>
    show Spec (Actions p) (kindOfValue p baseNode v) b _
    unfold kindOfValue
    cases hv : p.value? v with
    | none => exact .pure nofun
    | some value =>
      cases value with
      | functionRef =>
        refine .seq funcOf_actions.spec fun f b₁ _ => .pure ?_
        rintro cid _ ⟨⟩
        exact .literal f hv
      | fieldRef base | elementRef base =>
        have hplace := Program.not_onlyAssigned_of_base? hv rfl
        exact .seq (hbase base hplace).spec fun _ _ _ => .pure nofun
      | _ => exact .pure nofun
  | _ => exact .pure nofun

theorem obtain_actions {baseNode : ContextId → ValueId → Build (Option NodeId)} {e : Entity}
    (hbase : ∀ cid v, ¬p.OnlyAssigned v → Guarantees (Actions p) (baseNode cid v))
    (origin : b.Origin p cid e) : Spec (Actions p) (obtain p baseNode cid e) b fun _ _ => True := by
  refine .get_bind ?_
  dsimp only
  split
  · exact .pure trivial
  · refine .bind (kindOf_actions (hbase _) e) fun kind b₁ h₁ hfunction => ?_
    refine nodeWithKind_actions (fun v hv => ?_) (hfunction _)
    subst hv
    exact origin.mono h₁.extends v rfl

theorem nodeWithin_actions (depth : Nat) {e : Entity} (origin : b.Origin p cid e) :
    Spec (Actions p) (nodeWithin p depth cid e) b fun _ _ => True := by
  -- The only other node that is asked for is that of a base, and a base is a place.
  induction depth generalizing b cid e with
  | zero => exact obtain_actions (fun _ _ _ => .pure) origin
  | succ depth ih =>
    exact obtain_actions
      (fun _ _ hv => .map (.of_spec fun _ => ih (Builder.origin_entityOf hv))) origin

theorem nodeOf_actions {e : Entity} (origin : b.Origin p cid e) :
    Spec (Actions p) (nodeOf p cid e) b fun _ _ => True :=
  nodeWithin_actions (depth e) origin

/-- A node of an entity that is no value. -/
theorem nodeOf_actions_of_ne_value {e : Entity} (he : ∀ v, e ≠ .value v) :
    Guarantees (Actions p) (nodeOf p cid e) :=
  .of_spec fun _ => nodeOf_actions (.of_ne he)

theorem valueNode_actions {v : ValueId} (hv : ¬p.OnlyAssigned v) :
    Guarantees (Actions p) (valueNode p cid v) :=
  .of_spec fun _ => nodeOf_actions (Builder.origin_entityOf hv)

/-- The node of a place is there then. -/
theorem valueNode_found {v : ValueId} (hv : ¬p.OnlyAssigned v) :
    Spec (Actions p) (valueNode p cid v) b fun n b' =>
      nodeIn? b'.pag cid (entityOf p v) = some n := by
  have hfound : Spec (Actions p) (valueNode p cid v) b fun n b' =>
      b'.pag.find? (contextOf b.pag cid (entityOf p v)) (entityOf p v) = some n :=
    ⟨valueNode_actions hv b, nodeOf_linkSpec.2⟩
  refine hfound.mono fun n b₁ _ hn => ?_
  unfold nodeIn?
  rwa [contextOf_eq (entityOf_isPlain p v) b₁.pag b.pag cid]

/-- The arguments that are locals have their nodes then. -/
theorem argNodes_passes (args : List ValueId) (index : Nat) :
    Spec (Actions p) (argNodes p cid args index) b fun ns b' =>
      p.Passes b'.pag (args.map (cid, ·)) index ns := by
  induction args generalizing b index with
  | nil => exact .pure .nil
  | cons a args ih =>
    unfold argNodes
    split
    · rename_i hlocal
      refine .bind (valueNode_found (Program.not_onlyAssigned_of_isLocal hlocal)) ?_
      refine fun n b₁ _ hn => .bind (ih (index + 1)) fun ns b₂ h₂ hns => .pure ?_
      exact .cons hlocal (Program.NodeOf.mono hn h₂.extends.pag) hns
    · rename_i hlocal
      exact (ih (index + 1)).mono fun ns b₁ _ hns => .skip (by simpa using hlocal) hns

theorem argNodes_actions (args : List ValueId) (index : Nat) :
    Guarantees (Actions p) (argNodes p cid args index) :=
  .of_spec fun _ => argNodes_passes args index

end Build

/-! ## Summaries -/

/-- What the summary in the making mentions and is only assigned is assigned by the method, and the
references that it has are places. -/
structure Summarizer.FromMethod (p : Program) (m : MethodSig) (s : Summarizer) : Prop where
  assigned : ∀ {v}, s.summary.Mentions v → p.OnlyAssigned v → p.AssignedIn m v
  refs : ∀ r ∈ s.refs, ¬p.OnlyAssigned r.2

namespace Summarize

open Summarizer (FromMethod)

variable {g : CallGraph} {m : MethodSig} {s s' : Summarizer} {id : StmtId}

/-- The end of a move may be a value if that is a place, or is assigned by the method. -/
def MayEnd (p : Program) (m : MethodSig) (e : Entity) : Prop :=
  ∀ v, e = .value v → p.OnlyAssigned v → p.AssignedIn m v

theorem mayEnd_of_not {v : ValueId} (hv : ¬p.OnlyAssigned v) : MayEnd p m (.value v) := by
  rintro _ ⟨⟩ h
  exact absurd h hv

theorem mayEnd_of_isLocal {v : ValueId} (hv : p.isLocal v = true) : MayEnd p m (.value v) :=
  mayEnd_of_not (Program.not_onlyAssigned_of_isLocal hv)

theorem mayEnd_entityOf {v : ValueId} (h : p.OnlyAssigned v → p.AssignedIn m v) :
    MayEnd p m (Build.entityOf p v) := by
  intro w hw ho
  unfold Build.entityOf at hw
  split at hw <;> cases hw
  exact h ho

theorem addEdge_fromMethod (h : s.FromMethod p m) {kind : EdgeKind} {src dst : Entity}
    (hsrc : MayEnd p m src) (hdst : MayEnd p m dst) :
    TrySpec AnyChange (change fun s => s.addEdge kind src dst id) s fun _ s' =>
      s'.FromMethod p m := by
  refine .modify trivial ⟨?_, h.refs⟩
  rintro v (⟨e, he, hend⟩ | hfree) hv
  · rcases List.mem_append.1 he with he | he
    · exact h.assigned (Or.inl ⟨e, he, hend⟩) hv
    · cases List.mem_singleton.1 he
      exact hend.elim (fun heq => hsrc v heq hv) fun heq => hdst v heq hv
  · exact h.assigned (Or.inr hfree) hv

/-- A change that adds neither moves nor free locals. -/
theorem change_fromMethod (h : s.FromMethod p m) {f : Summary → Summary}
    (hedges : (f s.summary).edges = s.summary.edges)
    (hfree : (f s.summary).free = s.summary.free) :
    TrySpec AnyChange (change f) s fun _ s' => s'.FromMethod p m := by
  refine .modify trivial ⟨fun {v} hmentions => h.assigned ?_, h.refs⟩
  unfold Summary.Mentions at hmentions ⊢
  rw [← hedges, ← hfree]
  exact hmentions

/-- The reference that stands for an access is the access or an earlier one. -/
theorem canonical_fromMethod (h : s.FromMethod p m) {base access : ValueId} {key : FieldKey}
    (haccess : ¬p.OnlyAssigned access) :
    TrySpec AnyChange (canonical base key access) s fun e s' =>
      s'.FromMethod p m ∧ MayEnd p m e := by
  refine .get_bind ?_
  split
  · rename_i ref href
    obtain ⟨l₁, l₂, hrefs, -⟩ := List.lookup_eq_some_iff.1 href
    refine .pure ⟨h, mayEnd_of_not (h.refs ((base, key), ref) ?_)⟩
    rw [hrefs]
    exact List.mem_append_right _ List.mem_cons_self
  · refine .modify_bind trivial (.pure ⟨⟨h.assigned, fun r hr => ?_⟩, mayEnd_of_not haccess⟩)
    rcases List.mem_append.1 hr with hr | hr
    · exact h.refs r hr
    · rw [List.mem_singleton.1 hr]
      exact haccess

/-- The move that reads the right side of an assignment of the method. -/
theorem reading_fromMethod (h : s.FromMethod p m) {right : ValueId}
    (hright : p.OnlyAssigned right → p.AssignedIn m right) :
    TrySpec AnyChange (reading p right) s fun move s' =>
      s'.FromMethod p m ∧ ∀ kind src, move = some (kind, src) → MayEnd p m src := by
  have hend := mayEnd_entityOf hright
  unfold reading
  cases hv : p.value? right with
  | none => exact .pure ⟨h, nofun⟩
  | some value =>
    cases value with
    | newObject | newArray | functionRef | globalThis | localVar | param | thisRef | captured
    | staticRef =>
      refine .pure ⟨h, ?_⟩
      rintro _ _ ⟨⟩
      exact hend
    | cast op =>
      refine .pure ⟨h, fun kind src hmove => ?_⟩
      split at hmove
      · rename_i hlocal
        cases hmove
        exact mayEnd_of_isLocal hlocal
      · cases hmove
    | fieldRef | elementRef =>
      have haccess := Program.not_onlyAssigned hv rfl
      refine .bind (canonical_fromMethod h haccess) fun e s₁ _ ⟨h₁, he⟩ => .pure ⟨h₁, ?_⟩
      rintro _ _ ⟨⟩
      exact he
    | constant | compute | invoke => exact .pure ⟨h, nofun⟩

theorem assign_fromMethod (h : s.FromMethod p m) {left right : ValueId}
    (hright : p.OnlyAssigned right → p.AssignedIn m right) :
    TrySpec AnyChange (assign p id left right) s fun _ s' => s'.FromMethod p m := by
  have write : ∀ base key, ¬p.OnlyAssigned left → TrySpec AnyChange (do
      if p.isLocal right then
        let dst ← canonical base key left
        change fun s => s.addEdge .write (.value right) dst id) s
          fun _ s' => s'.FromMethod p m := by
    intro base key hleft
    split
    · rename_i hlocal
      refine .bind (canonical_fromMethod h hleft) fun e s₁ _ ⟨h₁, he⟩ => ?_
      exact addEdge_fromMethod h₁ (mayEnd_of_isLocal hlocal) he
    · exact .pure h
  unfold assign
  cases hv : p.value? left with
  | none => exact .pure h
  | some value =>
    cases value with
    | localVar =>
      refine .bind (reading_fromMethod h hright) fun move s₁ _ ⟨h₁, hmove⟩ => ?_
      split
      · exact addEdge_fromMethod h₁ (hmove _ _ rfl)
          (mayEnd_of_not (Program.not_onlyAssigned hv rfl))
      · exact .pure h₁
    | fieldRef base field => exact write base (.ofSig field) (Program.not_onlyAssigned hv rfl)
    | elementRef base => exact write base .element (Program.not_onlyAssigned hv rfl)
    | staticRef =>
      dsimp only
      split
      · rename_i hlocal
        exact addEdge_fromMethod h (mayEnd_of_isLocal hlocal) nofun
      · split
        · exact addEdge_fromMethod h (mayEnd_entityOf hright) nofun
        · exact .pure h
    | captured => exact .pure h
    | constant | newObject | newArray | functionRef | globalThis | param | thisRef | cast | compute
    | invoke => exact .throw

theorem call_fromMethod (h : s.FromMethod p m) :
    TrySpec AnyChange (call p g id) s fun _ s' => s'.FromMethod p m := by
  unfold call
  split
  · exact .pure h
  · refine change_fromMethod h ?_ ?_ <;> (split <;> rfl)
  · refine change_fromMethod h ?_ ?_ <;> rw [Summary.foldl_addStaticCall]

theorem stmt_fromMethod {decl : MethodDecl} (hm : p.method? m = some decl) (hid : id ∈ decl.stmts)
    (h : s.FromMethod p m) : TrySpec AnyChange (stmt p g id) s fun _ s' => s'.FromMethod p m := by
  unfold stmt
  split
  · rename_i left right hkind
    split
    · exact call_fromMethod h
    · refine assign_fromMethod h fun _ => List.mem_map.2 ⟨(left, right), ?_, rfl⟩
      refine List.mem_filterMap.2 ⟨id, by rwa [hm], ?_⟩
      rw [hkind]
  · exact call_fromMethod h
  · split
    · refine change_fromMethod h ?_ ?_ <;> rw [Summary.addReturn_eq]
    · exact .pure h
  · exact .pure h

theorem method_fromMethod {f : FuncId} (hm : g.methodOf? f = some m)
    (h : method p g f m = (.ok (), s)) : s.summary.FromMethod p g f := by
  have hempty : ∀ v, ¬({ func := f } : Summary).Mentions v := by
    rintro v (⟨e, he, -⟩ | ⟨x, hx, -⟩)
    · exact List.not_mem_nil he
    · exact List.not_mem_nil hx
  have hstart : (⟨{ func := f }, []⟩ : Summarizer).FromMethod p m :=
    ⟨fun hv => absurd hv (hempty _), fun _ hr => absurd hr List.not_mem_nil⟩
  unfold method at h
  split at h
  · rename_i decl hdecl
    obtain ⟨_, s₁, hloop, hchange⟩ := TryGuarantees.of_bind h
    have hmade := (TrySpec.forM_invariant (P := fun _ _ => True) (R := AnyChange)
      (fun _ _ _ _ _ => trivial) hstart fun id hid s' _ h' =>
        (stmt_fromMethod hdecl hid h').mono fun _ _ _ h'' => ⟨h'', trivial⟩).of_run hloop
    -- No statement has added a free local, so all that are there come from the declaration.
    have hnone : s₁.summary.free = [] := (TryGuarantees.forM fun _ _ => stmt_keepsFree) hloop
    cases hchange
    have hfree : ∀ x ∈ ((decl.locals.filterMap (freeLocal? p)).foldl Summary.addFree
        s₁.summary).free, freeLocal? p x.name = some x := by
      intro x hx
      have hx := (Summary.mem_of_mem_foldl_addFree hx).resolve_left (by simp [hnone])
      obtain ⟨v, -, hv⟩ := List.mem_filterMap.1 hx
      rw [(Program.isLocal_of_freeLocal? hv).1]
      exact hv
    refine ⟨?_, hfree⟩
    rintro v (⟨e, he, hend⟩ | ⟨x, hx, rfl⟩) ho
    · dsimp only at he
      rw [Summary.foldl_addFree] at he
      exact ⟨m, hm, hmade.2.1.assigned (Or.inl ⟨e, he, hend⟩) ho⟩
    · have hlocal := (Program.isLocal_of_freeLocal? (hfree x hx)).2
      exact absurd ho (Program.not_onlyAssigned_of_isLocal hlocal)
  · cases h
    exact ⟨fun hv => absurd hv (hempty _), fun _ hx => absurd hx List.not_mem_nil⟩

end Summarize

namespace Build

theorem actions_foldl_addBaseRef (refs : List ((ValueId × FieldKey) × ValueId)) (b : Builder) :
    Actions p b { b with pag := refs.foldl (fun g r => g.addBaseRef r.1.1 r.2) b.pag } := by
  induction refs generalizing b with
  | nil => exact refl_of (Actions p) b
  | cons r refs ih =>
    have hone : Actions p b { b with pag := b.pag.addBaseRef r.1.1 r.2 } :=
      actions_draw (b.pag.addBaseRef_extends r.1.1 r.2) (by rw [Pag.nodes_addBaseRef])
    exact trans_of (Actions p) hone (ih { b with pag := b.pag.addBaseRef r.1.1 r.2 })

theorem methodOf_actions {f : FuncId} :
    TrySpec (Actions p) (methodOf f) b fun m b' => b' = b ∧ b.graph.methodOf? f = some m := by
  unfold methodOf
  refine .get_bind ?_
  split
  · rename_i m hm
    exact .pure ⟨rfl, hm⟩
  · exact .throw

/-- Afterwards the method has a summary. What was asked of methods is not touched. -/
theorem summarize_actions {f : FuncId} :
    TrySpec (Actions p) (summarize p f) b fun _ b' =>
      (∃ s, b'.summary? f = some s) ∧ b'.singletons = b.singletons := by
  unfold summarize
  refine .get_bind ?_
  dsimp only
  split
  · rename_i hsome
    exact .pure ⟨Option.isSome_iff_exists.1 hsome, rfl⟩
  · refine .bind methodOf_actions fun m b₁ _ ⟨hb, hm⟩ => .get_bind ?_
    subst hb
    generalize hr : Summarize.method p b₁.graph f m = r
    obtain ⟨result, s⟩ := r
    -- What has been found out about references is kept, even if the body has no summary.
    refine .modify_bind (actions_foldl_addBaseRef s.refs b₁) ?_
    cases result with
    | error e => exact .throw
    | ok x =>
      have hmade := Summarize.method_fromMethod hm hr
      refine .modify_bind (.of_action (.summary f s.summary hmade)) (.pure ⟨?_, rfl⟩)
      refine Option.isSome_iff_exists.1 ?_
      simp [Builder.summary?, List.lookup_append]

/-- The answer is noted. -/
theorem isSingleton_actions {f : FuncId} :
    TrySpec (Actions p) (isSingleton p f) b fun single b' =>
      b'.singletons.lookup f = some single := by
  have keep : ∀ answer (b : Builder), b.singletons.lookup f = none → TrySpec (Actions p) (do
      modify fun b => { b with singletons := b.singletons ++ [(f, answer)] }
      return answer : TryBuild Bool) b fun single b' =>
        b'.singletons.lookup f = some single := by
    intro answer b hnew
    refine .modify_bind (.of_action (.answer f answer hnew)) (.pure ?_)
    simp [List.lookup_append, hnew]
  unfold isSingleton
  refine .get_bind ?_
  split
  · rename_i known hknown
    exact .pure hknown
  · rename_i hnew
    refine .get_bind ?_
    dsimp only
    split
    · refine .bind summarize_actions fun _ b₁ _ ⟨_, hsame⟩ => .get_bind (keep _ b₁ ?_)
      rw [hsame]
      exact hnew
    · exact keep _ b hnew

/-! ## Calls -/

/-- Enters the callee of a call, in the context that it is analysed in. -/
def enterCallee (p : Program) (enter : Enter) (c : CallBinding) : TryBuild ContextId := do
  let cid ← calleeContext p c
  enter c.callee cid
  return cid

/-- The callee of the call is asked for, in the context of the call. -/
theorem enterCallee_enqueue {c : CallBinding} :
    TrySpec (Actions p) (enterCallee p enqueue c) b fun cid b' => b'.Requested c.callee cid ∧
      Builder.CallContext b b' c.callerCid c.site c.contextObj c.callee cid := by
  unfold enterCallee calleeContext
  rw [bind_assoc]
  refine .bind isSingleton_actions fun single b₁ h₁ hsingle => ?_
  cases single with
  | true =>
    have hact := Action.ask (p := p) c.callee (.shared hsingle)
    refine ⟨.of_action hact, ?_⟩
    rintro cid ⟨⟩
    exact ⟨Or.inl (List.mem_append_right _ (List.mem_singleton_self _)), .shared hsingle⟩
  | false =>
    have hact := Action.ask (p := p) c.callee (.call c.callerCid c.site c.contextObj hsingle)
    refine ⟨.of_action hact, ?_⟩
    rintro cid ⟨⟩
    exact ⟨Or.inl (List.mem_append_right _ (List.mem_singleton_self _)),
      .chosen hsingle h₁.extends.contexts .rfl⟩

theorem connectOuterThis_actions {c : CallBinding} {m : MethodDecl} {dst : NodeId} :
    Guarantees (Actions p) (do
      if m.sig.isArrow then
        if let some outerThis := m.outer.bind p.thisLocal? then
          let src ← valueNode p (c.functionCid.getD c.callerCid) outerThis
          discard (addEdge .this src dst)) := by
  split
  · split
    · rename_i outerThis houter
      obtain ⟨outer, -, houter⟩ := Option.bind_eq_some_iff.1 houter
      refine .bind (valueNode_actions (Program.not_onlyAssigned_of_thisLocal? houter)) fun _ => ?_
      exact .discard addEdge_actions
    · exact .pure
  · exact .pure

theorem connectThis_actions {c : CallBinding} {m : MethodDecl} {cid : ContextId} :
    Guarantees (Actions p) (connectThis p c m cid) := by
  unfold connectThis
  split
  · rename_i this hthis
    refine .bind (valueNode_actions (Program.not_onlyAssigned_of_thisRef? hthis)) fun dst => ?_
    dsimp only
    split
    · exact .bind (.discard addEdge_actions) fun _ => connectOuterThis_actions
    · exact connectOuterThis_actions
  · exact .pure

theorem connectArgs_actions {args : List (NodeId × Nat)} {m : MethodSig} {cid : ContextId} :
    Guarantees (Actions p) (args.forM fun arg => do
      if let some param := (p.params m).lookup arg.2 then
        discard (addEdge .copy arg.1 (← valueNode p cid param))) := by
  refine .forM fun arg _ => ?_
  split
  · rename_i param hparam
    obtain ⟨l₁, l₂, hparams, -⟩ := List.lookup_eq_some_iff.1 hparam
    have hmem : (arg.2, param) ∈ p.params m := by simp [hparams]
    refine .bind (valueNode_actions (Program.not_onlyAssigned_of_params hmem)) fun _ => ?_
    exact .discard addEdge_actions
  · exact .pure

theorem connectSpread_actions {src : NodeId} {m : MethodSig} {cid : ContextId} :
    Guarantees (Actions p) ((p.params m).forM fun param => do
      discard (addEdge .load src (← valueNode p cid param.2))) := by
  refine .forM fun param hparam => ?_
  refine .bind (valueNode_actions (Program.not_onlyAssigned_of_params hparam)) fun _ => ?_
  exact .discard addEdge_actions

theorem connectReturns_actions {dst : NodeId} {m : MethodSig} {cid : ContextId} :
    Guarantees (Actions p) ((p.returnValues m).forM fun v => do
      discard (addEdge .copy (← valueNode p cid v) dst)) := by
  refine .forM fun v hv => ?_
  refine .bind (valueNode_actions (Program.not_onlyAssigned_of_returnValues hv)) fun _ => ?_
  exact .discard addEdge_actions

/-- The result and the receiver. -/
theorem connectResult_actions {c : CallBinding} {m : MethodDecl} {cid : ContextId} :
    Guarantees (Actions p) (do
      if let some dst := c.result then
        (p.returnValues m.sig).forM fun v => do
          discard (addEdge .copy (← valueNode p cid v) dst)
      connectThis p c m cid) := by
  split
  · exact .bind connectReturns_actions fun _ => connectThis_actions
  · exact connectThis_actions

theorem connectFlow_actions {c : CallBinding} {m : MethodDecl} {cid : ContextId} :
    Guarantees (Actions p) (connectFlow p c m cid) := by
  unfold connectFlow
  refine .bind connectArgs_actions fun _ => ?_
  dsimp only
  split
  · exact .bind connectSpread_actions fun _ => connectResult_actions
  · exact connectResult_actions

end Build

/-- Entering the callee of a call is a sequence of actions, and asks for it in the context of the
call. -/
def Enter.ByActions (p : Program) (enter : Enter) : Prop :=
  ∀ c b, TrySpec (Actions p) (Build.enterCallee p enter c) b fun cid b' =>
    b'.Requested c.callee cid ∧
    Builder.CallContext b b' c.callerCid c.site c.contextObj c.callee cid

namespace Build

/-- A call is connected by finding the method, entering it and drawing the edges. -/
theorem connect_eq (p : Program) (enter : Enter) (c : CallBinding) : connect p enter c = (do
    let sig ← methodOf c.callee
    match (p.method? sig).filter MethodDecl.hasBody with
    | none => return none
    | some m =>
      let cid ← enterCallee p enter c
      connectFlow p c m cid
      return some cid) := by
  refine bind_congr fun sig => ?_
  cases (p.method? sig).filter MethodDecl.hasBody with
  | none => rfl
  | some m => simp only [enterCallee, bind_assoc, pure_bind]

theorem connect_actions {enter : Enter} {c : CallBinding} (h : enter.ByActions p) :
    TrySpec (Actions p) (connect p enter c) b fun _ _ => True := by
  rw [connect_eq]
  refine .seq methodOf_actions.any fun sig b₁ _ => ?_
  split
  · exact .pure trivial
  · refine .seq (h c b₁).any fun cid b₂ _ => ?_
    exact .seq (.lift connectFlow_actions.spec) fun _ b₃ _ => .pure trivial

end Build

end PointsTo
