import PointsTo.Builder.Instantiate
import PointsTo.Proofs.Builder.Functions
import PointsTo.Proofs.Builder.Steps
import PointsTo.Proofs.Confined.Contexts
import PointsTo.Proofs.Program.Vocabulary

/-!
# What a builder does, and why

Where `Builder.Step` leaves open what a builder does with the things that it keeps for itself, here
is said when it does them (`Builder.Action`). A method is only asked for because it is called,
because it is an entry or because it sets up what a free local stands for, and each of these has its
own context (`RequestReason`). Methods are taken up from the front of the queue. The answer whether
a method is analysed in one context only is noted once. An object that the program does nothing with
but assign it gets nodes only where a method whose summary mentions it is laid out (`Origin`). And a
function object is one of the program or made of another by `bind` (`Program.MakesFunction`).

Whatever a builder does and however it ends, all it does are actions. They take nothing back
(`Extends`).
-/

namespace PointsTo

namespace Program

/-- The value is an object of the program that is assigned and nothing else: it is no place that
something is assigned to, nothing is read through it, and nothing is called on it. -/
structure OnlyAssigned (p : Program) (v : ValueId) : Prop where
  allocation : (p.value? v).any Value.isAllocation = true
  target : ∀ stmt ∈ p.stmts, stmt.defValue? ≠ some v
  base : ∀ value ∈ p.values, value.base? ≠ some v

/-- The body of the method assigns the value to something. -/
def AssignedIn (p : Program) (m : MethodSig) (v : ValueId) : Prop :=
  v ∈ (p.assignments m).map Prod.snd

instance (p : Program) (m : MethodSig) (v : ValueId) : Decidable (p.AssignedIn m v) :=
  inferInstanceAs (Decidable (v ∈ _))

/-- Some free local stands for a local of the method. -/
def SetsUp (p : Program) (m : MethodSig) : Prop :=
  ∃ v d name ty, p.resolveFree? v = some d ∧ p.value? d = some (.localVar name ty m)

variable {p : Program} {v : ValueId}

theorem not_onlyAssigned {value : Value} (hv : p.value? v = some value)
    (h : value.isAllocation = false) : ¬p.OnlyAssigned v := fun hv' => by
  have := hv'.allocation
  rw [hv] at this
  simp [h] at this

theorem not_onlyAssigned_of_isLocal (h : p.isLocal v = true) : ¬p.OnlyAssigned v := by
  obtain ⟨name, ty, m, hv⟩ := isLocal_iff.1 h
  exact not_onlyAssigned hv rfl

end Program

/-- The value is an end of a move of the summary, or a free local of it. -/
def Summary.Mentions (s : Summary) (v : ValueId) : Prop :=
  (∃ e ∈ s.edges, e.src = .value v ∨ e.dst = .value v) ∨ ∃ x ∈ s.free, x.name = v

/-- What the summary mentions and is only assigned is assigned by the method, and its free locals
are such. -/
structure Summary.FromMethod (p : Program) (g : CallGraph) (f : FuncId) (s : Summary) : Prop where
  assigned : ∀ {v}, s.Mentions v → p.OnlyAssigned v →
    ∃ m, g.methodOf? f = some m ∧ p.AssignedIn m v
  free : ∀ x ∈ s.free, Summarize.freeLocal? p x.name = some x

namespace Builder

/-- The method waits to be laid out in the context, or has been taken up there. -/
def Requested (b : Builder) (f : FuncId) (cid : ContextId) : Prop :=
  (f, cid) ∈ b.pending ∨ (cid, f) ∈ b.built

/-- If the entity is a value that is only assigned, then a method that is laid out in the context
mentions it. -/
def Origin (p : Program) (b : Builder) (cid : ContextId) (e : Entity) : Prop :=
  ∀ v, e = .value v → p.OnlyAssigned v →
    ∃ f s, (cid, f) ∈ b.built ∧ b.summary? f = some s ∧ s.Mentions v

/-- The reasons to ask for a method, with the context it is asked for in and the table then. -/
inductive RequestReason (p : Program) (b : Builder) (f : FuncId) :
    ContextId × ContextTable → Prop where
  /-- It is called, and analysed in one context only. -/
  | shared (single : b.singletons.lookup f = some true) :
      RequestReason p b f (Context.root, b.contexts)
  | call (caller : ContextId) (site : CallSiteId) (obj : Option NodeId)
      (single : b.singletons.lookup f = some false) :
    RequestReason p b f (b.contexts.select caller site obj f)
  | entry (h : f ∈ b.graph.entries) : RequestReason p b f (b.contexts.entry f)
  /-- It sets up what a free local of a method stands for. -/
  | init {g : FuncId} {s : Summary} {x : FreeLocal} {name : String} {ty : Ty} {m : MethodSig}
      (summary : b.summary? g = some s) (free : x ∈ s.free)
      (decl : p.value? x.decl = some (.localVar name ty m)) (hm : b.graph.methodOf? f = some m) :
    RequestReason p b f (b.contexts.entry f)

/-- One action of a builder. -/
inductive Action (p : Program) (b : Builder) : Builder → Prop where
  | node (cid : ContextId) (e : Entity) (kind : NodeKind) (origin : b.Origin p cid e)
      (function : ∀ fn, kind = .function fn → p.MakesFunction b.pag cid e fn) :
    Action p b { b with pag := (b.pag.addNode cid e kind).2 }
  /-- Everything about the graph but new nodes. -/
  | draw (pag : Pag) (links : List (ValueId × EdgeKind × NodeId)) (newEdges : Array FlowEdge)
      (newSites : Array (NodeId × SiteRef)) (extends_ : b.pag.Extends pag)
      (size : pag.nodes.size = b.pag.nodes.size) :
    Action p b { b with pag, links, newEdges, newSites }
  | graph (graph : CallGraph) (grows : b.graph.Grows graph)
      (consistent : b.graph.Consistent p → graph.Consistent p)
      (entries : graph.entries = b.graph.entries) : Action p b { b with graph }
  | summary (f : FuncId) (s : Summary) (made : s.FromMethod p b.graph f) :
    Action p b { b with summaries := b.summaries ++ [(f, s)] }
  | answer (f : FuncId) (single : Bool) (new : b.singletons.lookup f = none) :
    Action p b { b with singletons := b.singletons ++ [(f, single)] }
  | unhandled (unhandled : List MethodSig) : Action p b { b with unhandled }
  | ask (f : FuncId) {r : ContextId × ContextTable} (asks : b.RequestReason p f r) :
    Action p b { b with contexts := r.2, pending := b.pending ++ [(f, r.1)] }
  | takeUp {f : FuncId} {cid : ContextId} {rest : List (FuncId × ContextId)}
      (next : b.pending = (f, cid) :: rest) :
    Action p b { b with pending := rest, built := (cid, f) :: b.built }
  /-- A method that has been taken up before is dropped from the queue. -/
  | drop {f : FuncId} {cid : ContextId} {rest : List (FuncId × ContextId)}
      (next : b.pending = (f, cid) :: rest) (done : (cid, f) ∈ b.built) :
    Action p b { b with pending := rest }

/-- Any number of actions. -/
def Actions (p : Program) : Builder → Builder → Prop :=
  Relation.ReflTransGen (Action p)

instance (p : Program) : IsPreorder Builder (Actions p) :=
  inferInstanceAs (IsPreorder Builder (Relation.ReflTransGen (Action p)))

/-! ## Nothing is taken back -/

/-- What the builder has, it has later on. -/
structure Extends (b b' : Builder) : Prop where
  pag : b.pag.Extends b'.pag
  graph : b.graph.Grows b'.graph
  entries : b'.graph.entries = b.graph.entries
  contexts : b.contexts.Extends b'.contexts
  summary : ∀ {f s}, b.summary? f = some s → b'.summary? f = some s
  single : ∀ {f answer}, b.singletons.lookup f = some answer →
    b'.singletons.lookup f = some answer
  built : ∀ {x}, x ∈ b.built → x ∈ b'.built
  requested : ∀ {f cid}, b.Requested f cid → b'.Requested f cid

variable {p : Program} {b b' b₁ b₂ b₃ : Builder}

theorem Extends.rfl : b.Extends b :=
  ⟨.rfl, .rfl, .refl _, .rfl, id, id, id, id⟩

theorem Extends.trans (h : b₁.Extends b₂) (h' : b₂.Extends b₃) : b₁.Extends b₃ where
  pag := h.pag.trans h'.pag
  graph := h.graph.trans h'.graph
  entries := h'.entries.trans h.entries
  contexts := h.contexts.trans h'.contexts
  summary := fun hs => h'.summary (h.summary hs)
  single := fun hs => h'.single (h.single hs)
  built := fun hx => h'.built (h.built hx)
  requested := fun hf => h'.requested (h.requested hf)

theorem RequestReason.extends {f : FuncId} {r : ContextId × ContextTable}
    (h : b.RequestReason p f r) : b.contexts.Extends r.2 := by
  cases h with
  | shared => exact .rfl
  | call caller site obj _ => exact b.contexts.select_extends caller site obj f
  | entry | init => exact b.contexts.entry_extends f

/-- What is noted first stays. -/
theorem lookup_append {α β : Type} [BEq α] {xs ys : List (α × β)} {x : α} {y : β}
    (h : xs.lookup x = some y) : (xs ++ ys).lookup x = some y := by
  rw [List.lookup_append, h]
  rfl

theorem Action.extends (h : Action p b b') : b.Extends b' := by
  have same : b.Extends b := .rfl
  cases h with
  | node cid e kind => exact { same with pag := b.pag.addNode_extends cid e kind }
  | draw _ _ _ _ extends_ _ => exact { same with pag := extends_ }
  | graph _ grows _ entries => exact { same with graph := grows, entries }
  | summary => exact { same with summary := lookup_append }
  | answer => exact { same with single := lookup_append }
  | unhandled => exact { same with }
  | ask f asks =>
    exact { same with
      contexts := asks.extends
      requested := fun hf => hf.imp_left fun hf => List.mem_append_left _ hf }
  | takeUp next =>
    refine { same with built := List.mem_cons_of_mem _, requested := ?_ }
    rintro f cid (hf | hf)
    · rw [next] at hf
      rcases List.mem_cons.1 hf with heq | hf
      · cases heq
        exact Or.inr List.mem_cons_self
      · exact Or.inl hf
    · exact Or.inr (List.mem_cons_of_mem _ hf)
  | drop next done =>
    refine { same with requested := ?_ }
    rintro f cid (hf | hf)
    · rw [next] at hf
      rcases List.mem_cons.1 hf with heq | hf
      -- What leaves the queue unseen was taken up before.
      · cases heq
        exact Or.inr done
      · exact Or.inl hf
    · exact Or.inr hf

theorem Actions.extends (h : Actions p b b') : b.Extends b' := by
  induction h with
  | refl => exact .rfl
  | tail _ hact ih => exact ih.trans hact.extends

theorem Actions.of_action (h : Action p b b') : Actions p b b' :=
  .single h

/-- The context that a call of the method was given, at some time from `b` to `b'`. -/
inductive CallContext (b b' : Builder) (caller : ContextId) (site : CallSiteId)
    (obj : Option NodeId) (f : FuncId) : ContextId → Prop where
  | shared (single : b'.singletons.lookup f = some true) :
    CallContext b b' caller site obj f Context.root
  | chosen {t : ContextTable} (single : b'.singletons.lookup f = some false)
      (after : b.contexts.Extends t) (before : (t.select caller site obj f).2.Extends b'.contexts) :
    CallContext b b' caller site obj f (t.select caller site obj f).1

theorem CallContext.mono {caller : ContextId} {site : CallSiteId} {obj : Option NodeId}
    {f : FuncId} {cid : ContextId} (h : CallContext b₁ b₂ caller site obj f cid)
    (hfrom : b.contexts.Extends b₁.contexts) (hto : b₂.Extends b') :
    CallContext b b' caller site obj f cid := by
  cases h with
  | shared single => exact .shared (hto.single single)
  | chosen single after before =>
    exact .chosen (hto.single single) (hfrom.trans after) (before.trans hto.contexts)

/-! ## Where nodes may be asked for -/

theorem Origin.of_not {v : ValueId} {cid : ContextId} (h : ¬p.OnlyAssigned v) :
    b.Origin p cid (.value v) := by
  rintro _ ⟨⟩ hv
  exact absurd hv h

theorem Origin.of_ne {cid : ContextId} {e : Entity} (h : ∀ v, e ≠ .value v) : b.Origin p cid e :=
  fun v hv => absurd hv (h v)

theorem Origin.mono {cid : ContextId} {e : Entity} (h : b.Origin p cid e) (hb : b.Extends b') :
    b'.Origin p cid e := by
  intro v hv ho
  obtain ⟨f, s, hf, hs, hmentions⟩ := h v hv ho
  exact ⟨f, s, hb.built hf, hb.summary hs, hmentions⟩

theorem origin_of_mentions {f : FuncId} {s : Summary} {cid : ContextId} {e : Entity}
    (hf : (cid, f) ∈ b.built) (hs : b.summary? f = some s) (h : ∀ v, e = .value v → s.Mentions v) :
    b.Origin p cid e :=
  fun v hv _ => ⟨f, s, hf, hs, h v hv⟩

theorem origin_entityOf {v : ValueId} {cid : ContextId} (h : ¬p.OnlyAssigned v) :
    b.Origin p cid (Build.entityOf p v) := by
  unfold Build.entityOf
  split
  · exact .of_ne nofun
  · exact .of_ne nofun
  · exact .of_not h

end Builder

end PointsTo
