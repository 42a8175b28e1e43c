import PointsTo.Proofs.Builder.Layout
import PointsTo.Proofs.Lockstep.Layout
import PointsTo.Proofs.Program.Copies

/-!
# Laying out programs that only copy

The summary of a method that only copies has one move for each of its statements, and no calls. So
when the method is laid out as an entry, the graph has just the moves of its statements
(`Pag.OnlyHasMoves`): an edge stands for the move of a statement, every move has its edge, and no
place has two nodes, since all nodes are in the one context, or in the one that static fields are
in.
-/

namespace PointsTo

def Place.entity : Place → Entity
  | var v => .value v
  | field f => .staticField f

theorem Place.entity_injective : Function.Injective Place.entity := by
  rintro (v | f) (v' | f') h <;> cases h <;> rfl

def Source.entity : Source → Entity
  | object v => .value v
  | place q => q.entity

/-- The edge that a move takes. -/
def Source.kind : Source → EdgeKind
  | object _ => .address
  | place _ => .copy

namespace Program

variable {p : Program} {m : MethodSig} {stmt : StmtId} {q : Place} {src : Source}

/-- What copies are between: locals, new objects and static fields. -/
def IsFlat (p : Program) : Entity → Prop
  | .value v => p.isLocal v = true ∨ ∃ cls, p.value? v = some (.newObject cls)
  | .staticField _ => True
  | _ => False

theorem IsFlat.isPlain {e : Entity} (h : p.IsFlat e) : e.IsPlain := by
  cases e with
  | value v => trivial
  | staticField f => trivial
  | _ => exact absurd h id

theorem Moves.isFlat (h : p.Moves stmt q src) : p.IsFlat src.entity ∧ p.IsFlat q.entity := by
  cases h with
  | new hs hx hv => exact ⟨Or.inr ⟨_, hv⟩, Or.inl hx⟩
  | copy hs hx hy => exact ⟨Or.inl hy, Or.inl hx⟩
  | cast hs hx hv hy => exact ⟨Or.inl hy, Or.inl hx⟩
  | load hs hx hv => exact ⟨trivial, Or.inl hx⟩
  | store hs hv hy => exact ⟨Or.inl hy, trivial⟩

end Program

/-! ## Summaries -/

def SummaryEdge.ofMove (stmt : StmtId) (q : Place) (src : Source) : SummaryEdge :=
  { kind := src.kind, src := src.entity, dst := q.entity, stmt }

/-- The summary with more moves. -/
def Summary.addEdges (s : Summary) (edges : List SummaryEdge) : Summary :=
  { s with edges := s.edges ++ edges }

/-- The moves of the statements, and no others. -/
def Program.MovesOf (p : Program) (stmts : List StmtId) (edges : List SummaryEdge) : Prop :=
  ∀ e, e ∈ edges ↔ ∃ stmt ∈ stmts, ∃ q src, p.Moves stmt q src ∧ e = .ofMove stmt q src

namespace Summarize

variable {p : Program} {g : CallGraph} {m : MethodSig} {id : StmtId} {q q' : Place}
  {src src' : Source}

theorem stmt_of_assigns {left right : ValueId} (h : p.Assigns id left right)
    (hr : ((p.value? right).bind Value.invoke?).isSome = false) :
    stmt p g id = assign p id left right := by
  unfold stmt
  rw [show (p.stmt? id).map Stmt.kind = _ from h]
  simp [hr]

/-- The summary gets the one move of the statement. -/
theorem stmt_of_moves (h : p.Moves id q src) :
    stmt p g id = change fun s => s.addEdge src.kind src.entity q.entity id := by
  cases h with
  | new hs hx hv =>
    obtain ⟨name, ty, m, hx⟩ := Program.isLocal_iff.1 hx
    rw [stmt_of_assigns hs (by simp [hv, Value.invoke?])]
    simp [hv, hx, assign, reading, Build.entityOf, Source.kind, Source.entity, Place.entity]
  | copy hs hx hy =>
    obtain ⟨name, ty, m, hx⟩ := Program.isLocal_iff.1 hx
    obtain ⟨name', ty', m', hy⟩ := Program.isLocal_iff.1 hy
    rw [stmt_of_assigns hs (by simp [hy, Value.invoke?])]
    simp [hx, hy, assign, reading, Build.entityOf, Source.kind, Source.entity, Place.entity]
  | cast hs hx hv hy =>
    obtain ⟨name, ty, m, hx⟩ := Program.isLocal_iff.1 hx
    rw [stmt_of_assigns hs (by simp [hv, Value.invoke?])]
    simp [hv, hx, hy, assign, reading, Source.kind, Source.entity, Place.entity]
  | load hs hx hv =>
    obtain ⟨name, ty, m, hx⟩ := Program.isLocal_iff.1 hx
    rw [stmt_of_assigns hs (by simp [hv, Value.invoke?])]
    simp [hv, hx, assign, reading, Build.entityOf, Source.kind, Source.entity, Place.entity]
  | store hs hv hy =>
    obtain ⟨name, ty, m, hy'⟩ := Program.isLocal_iff.1 hy
    rw [stmt_of_assigns hs (by simp [hy', Value.invoke?])]
    simp [hv, hy, assign, Source.kind, Source.entity, Place.entity]

/-- So a statement has one move only. -/
theorem ofMove_unique (h : p.Moves id q src) (h' : p.Moves id q' src') :
    SummaryEdge.ofMove id q' src' = .ofMove id q src := by
  have heq := (stmt_of_moves (g := {}) h').symm.trans (stmt_of_moves h)
  have hrun := congrArg (fun m => (m.run.run { summary := { func := 0 } }).2.summary.edges) heq
  exact List.singleton_inj.1 hrun

theorem movesOf_cons {stmt : StmtId} {stmts : List StmtId} {edges : List SummaryEdge}
    (h : p.Moves stmt q src) (hedges : p.MovesOf stmts edges) :
    p.MovesOf (stmt :: stmts) (.ofMove stmt q src :: edges) := by
  intro e
  rw [List.mem_cons, hedges e]
  constructor
  · rintro (rfl | ⟨stmt', hs, hmove⟩)
    · exact ⟨stmt, List.mem_cons_self, q, src, h, rfl⟩
    · exact ⟨stmt', List.mem_cons_of_mem _ hs, hmove⟩
  · rintro ⟨stmt', hs, q', src', h', rfl⟩
    rcases List.mem_cons.1 hs with rfl | hs
    · exact Or.inl (ofMove_unique h h')
    · exact Or.inr ⟨stmt', hs, q', src', h', rfl⟩

/-- Statements that copy add their moves to the summary and do nothing else. -/
theorem run_stmts {stmts : List StmtId} (h : ∀ stmt ∈ stmts, ∃ q src, p.Moves stmt q src)
    (s : Summarizer) : ∃ edges, p.MovesOf stmts edges ∧ (stmts.forM (stmt p g)).run.run s =
      (.ok (), { s with summary := s.summary.addEdges edges }) := by
  induction stmts generalizing s with
  | nil =>
    refine ⟨[], by simp [Program.MovesOf], ?_⟩
    rw [Summary.addEdges, List.append_nil]
    rfl
  | cons stmt stmts ih =>
    obtain ⟨q, src, hmove⟩ := h stmt List.mem_cons_self
    obtain ⟨edges, hedges, hrun⟩ := ih (fun stmt hs => h stmt (List.mem_cons_of_mem _ hs))
      { s with summary := s.summary.addEdge src.kind src.entity q.entity stmt }
    refine ⟨.ofMove stmt q src :: edges, movesOf_cons hmove hedges, ?_⟩
    have hstmt : ((stmt :: stmts).forM (Summarize.stmt p g)).run.run s =
        (stmts.forM (Summarize.stmt p g)).run.run
          { s with summary := s.summary.addEdge src.kind src.entity q.entity stmt } := by
      rw [List.forM, stmt_of_moves hmove]
      rfl
    rw [hstmt, hrun]
    simp [Summary.addEdge, Summary.addEdges, SummaryEdge.ofMove]

/-- The locals of the top level stand for themselves. -/
theorem freeLocal?_eq_none (h : p.OnlyCopies m) {v : ValueId} (hv : v ∈ p.localsOf m) :
    freeLocal? p v = none := by
  obtain ⟨name, ty, hv⟩ := h.isOwn v hv
  simp [freeLocal?, Program.resolveFree?, hv, h.isDefault]

/-- The summary has the moves of the statements and nothing else. -/
theorem method_of_onlyCopies (h : p.OnlyCopies m) (g : CallGraph) (f : FuncId) :
    ∃ edges, p.MovesOf (p.stmtsOf m) edges ∧
      method p g f m = (.ok (), { summary := { func := f, edges } }) := by
  have hmoves := h.moves
  have hfree := fun v (hv : v ∈ p.localsOf m) => freeLocal?_eq_none h hv
  unfold Program.stmtsOf at hmoves ⊢
  unfold Program.localsOf at hfree
  unfold method
  cases hm : p.method? m with
  | none => exact ⟨[], by simp [Program.MovesOf], rfl⟩
  | some decl =>
    simp only [hm, Option.map_some, Option.getD_some] at hmoves hfree ⊢
    obtain ⟨edges, hedges, hrun⟩ := run_stmts (g := g) hmoves { summary := { func := f } }
    refine ⟨edges, hedges, ?_⟩
    have hnone : decl.locals.filterMap (freeLocal? p) = [] := List.filterMap_eq_nil_iff.2 hfree
    show (body p g decl).run.run _ = _
    unfold body
    rw [hnone, run_bind_ok (congrArg Prod.fst hrun), hrun]
    rfl

end Summarize

/-! ## Nodes -/

namespace Build

variable {p : Program} {b : Builder} {e : Entity} {cid : ContextId}

/-- The kind of such a node depends on the program only. It is no access through another node. -/
theorem kindOf_of_isFlat (he : p.IsFlat e) : ∃ kind : NodeKind,
    kind.reference?.bind Prod.fst = none ∧
      ∀ baseNode, kindOf p baseNode e = (pure kind : Build NodeKind) := by
  cases e with
  | value v =>
    rcases he with hv | ⟨cls, hv⟩
    · obtain ⟨name, ty, m, hv⟩ := Program.isLocal_iff.1 hv
      exact ⟨.localVar, rfl, fun _ => by simp [kindOf, kindOfValue, hv]⟩
    · exact ⟨.heapObj (some cls) (ContainerKind.ofClass? cls), rfl, fun _ => by
        simp only [kindOf, kindOfValue, hv]⟩
  | staticField field => exact ⟨_, rfl, fun _ => rfl⟩
  | _ => exact absurd he id

/-- No edges are coming for it. -/
theorem onNewNode_of_isFlat (he : p.IsFlat e) (hb : b.links = []) (n : NodeId) :
    (onNewNode p n e).run b = ((), b) := by
  cases e with
  | value v =>
    have hno : ∀ env name, p.value? v ≠ some (.captured env name) := by
      intro env name hv
      rcases he with he | ⟨cls, he⟩
      · simp [Program.isLocal, hv, Value.isLocal] at he
      · rw [hv] at he
        cases he
    have hnone : (b.links.filter fun l => l.1 = v) = [] := by rw [hb]; rfl
    unfold onNewNode
    dsimp only
    split
    · rename_i env name hv
      exact absurd hv (hno env name)
    · have hrun : (do
          let coming := (← get).links.filter fun l => l.1 = v
          coming.forM fun l => discard (addEdge l.2.1 n l.2.2) : Build Unit).run b =
            ((b.links.filter fun l => l.1 = v).forM fun l => discard (addEdge l.2.1 n l.2.2) :
              Build Unit).run b := rfl
      exact hrun.trans (by rw [hnone]; rfl)
  | staticField field => rfl
  | _ => exact absurd he id

theorem nodeWithKind_of_isFlat (he : p.IsFlat e) (hb : b.links = []) (kind : NodeKind) :
    (nodeWithKind p cid e kind).run b =
      ((b.pag.addNode cid e kind).1.1, { b with pag := (b.pag.addNode cid e kind).2 }) := by
  unfold nodeWithKind
  have hrun : ∀ (n : NodeId) (isNew : Bool) (pag : Pag), (do
      if isNew then onNewNode p n e
      return n : Build NodeId).run { b with pag } = (n, { b with pag }) := by
    intro n isNew pag
    cases isNew with
    | true => exact congrArg (fun r => (n, r.2)) (onNewNode_of_isFlat (b := { b with pag }) he hb n)
    | false => rfl
  exact hrun _ _ _

theorem run_obtain (baseNode : ContextId → ValueId → Build (Option NodeId)) (cid : ContextId)
    (e : Entity) (b : Builder) : (obtain p baseNode cid e).run b =
      (match b.pag.find? (contextOf b.pag cid e) e with
      | some n => pure n
      | none => kindOf p (baseNode (contextOf b.pag cid e)) e >>=
          nodeWithKind p (contextOf b.pag cid e) e : Build NodeId).run b :=
  rfl

/-- The node is looked up, and made if it is not there. Nothing else is done. -/
theorem obtain_of_isFlat (cid : ContextId) (he : p.IsFlat e) (hb : b.links = []) :
    ∃ kind : NodeKind, kind.reference?.bind Prod.fst = none ∧ ∀ baseNode,
      (obtain p baseNode cid e).run b = ((b.pag.addNode (contextOf b.pag cid e) e kind).1.1,
        { b with pag := (b.pag.addNode (contextOf b.pag cid e) e kind).2 }) := by
  obtain ⟨kind, hbase, hkind⟩ := kindOf_of_isFlat he
  refine ⟨kind, hbase, fun baseNode => ?_⟩
  rw [run_obtain, hkind, pure_bind]
  cases hfind : b.pag.find? (contextOf b.pag cid e) e with
  | some n =>
    unfold Pag.addNode
    rw [hfind]
    rfl
  | none => exact nodeWithKind_of_isFlat he hb kind

theorem nodeOf_of_isFlat (cid : ContextId) (he : p.IsFlat e) (hb : b.links = []) :
    ∃ kind : NodeKind, kind.reference?.bind Prod.fst = none ∧
      (nodeOf p cid e).run b = ((b.pag.addNode (contextOf b.pag cid e) e kind).1.1,
        { b with pag := (b.pag.addNode (contextOf b.pag cid e) e kind).2 }) := by
  obtain ⟨kind, hbase, hobtain⟩ := obtain_of_isFlat cid he hb
  refine ⟨kind, hbase, ?_⟩
  unfold nodeOf
  cases depth e with
  | zero => exact hobtain _
  | succ n => exact hobtain _

end Build

/-! ## Graphs -/

/-- A node of what copies are between, for a method in context `cid`. No call waits at it, and it is
no access through another node. -/
structure Node.IsFlat (p : Program) (cid : ContextId) (x : Node) : Prop where
  entity : p.IsFlat x.entity
  context : ∀ g, x.cid = Build.contextOf g cid x.entity
  sites : x.sites = []
  base : x.kind.reference?.bind Prod.fst = none

/-- The edge is the move, between the nodes of what it is between. -/
structure Pag.IsEdgeOf (g : Pag) (e : FlowEdge) (move : SummaryEdge) : Prop where
  kind : e.kind = move.kind
  src : g.entity? e.src = some move.src
  dst : g.entity? e.dst = some move.dst

theorem Pag.IsEdgeOf.mono {g g' : Pag} (h : g.Extends g') {e : FlowEdge} {move : SummaryEdge}
    (hd : g.IsEdgeOf e move) : g'.IsEdgeOf e move :=
  ⟨hd.kind, h.entity? hd.src, h.entity? hd.dst⟩

/-- The graph has nothing but the moves, for a method in context `cid`. -/
structure Pag.OnlyHasMoves (p : Program) (cid : ContextId) (moves : List SummaryEdge) (g : Pag) :
    Prop where
  node : ∀ {n x}, g.node? n = some x → x.IsFlat p cid
  edge : ∀ {e}, e ∈ g.edges → ∃ move ∈ moves, g.IsEdgeOf e move

namespace Pag.OnlyHasMoves

variable {p : Program} {cid : ContextId} {moves : List SummaryEdge} {g : Pag}

theorem addNode (h : g.OnlyHasMoves p cid moves) {e : Entity} (he : p.IsFlat e) {kind : NodeKind}
    (hbase : kind.reference?.bind Prod.fst = none) :
    (g.addNode (Build.contextOf g cid e) e kind).2.OnlyHasMoves p cid moves where
  node := fun hx => by
    rcases node?_addNode hx with hx | ⟨-, rfl⟩
    · exact h.node hx
    · exact ⟨he, fun g' => Build.contextOf_eq he.isPlain g g' cid, rfl, hbase⟩
  edge := fun hm => by
    rw [edges_addNode] at hm
    obtain ⟨move, hmove, hedge⟩ := h.edge hm
    exact ⟨move, hmove, hedge.mono (g.addNode_extends _ e kind)⟩

theorem addEdge (h : g.OnlyHasMoves p cid moves) {move : SummaryEdge} (hmove : move ∈ moves)
    {n n' : NodeId} (hn : g.entity? n = some move.src) (hn' : g.entity? n' = some move.dst) :
    (g.addEdge move.kind n n').2.OnlyHasMoves p cid moves where
  node := fun hx => h.node (by simpa using hx)
  edge := fun hm => by
    have hg := g.addEdge_extends move.kind n n'
    rcases mem_edges_addEdge hm with hm | ⟨-, rfl, -⟩
    · obtain ⟨move, hmove, hedge⟩ := h.edge hm
      exact ⟨move, hmove, hedge.mono hg⟩
    · exact ⟨move, hmove, rfl, hg.entity? hn, hg.entity? hn'⟩

end Pag.OnlyHasMoves

/-! ## Layouts -/

/-- Nodes and edges are added, and edges are logged. A graph of just the moves stays one. -/
structure Builder.KeepsOnlyMoves (p : Program) (cid : ContextId) (moves : List SummaryEdge)
    (b b' : Builder) : Prop where
  pag : b.pag.Extends b'.pag
  onlyHasMoves : b.pag.OnlyHasMoves p cid moves → b'.pag.OnlyHasMoves p cid moves
  links : b'.links = b.links
  pending : b'.pending = b.pending
  newSites : b'.newSites = b.newSites

instance (p : Program) (cid : ContextId) (moves : List SummaryEdge) :
    IsPreorder Builder (Builder.KeepsOnlyMoves p cid moves) where
  refl _ := ⟨.rfl, fun h => h, rfl, rfl, rfl⟩
  trans _ _ _ h h' := ⟨h.pag.trans h'.pag, fun hb => h'.onlyHasMoves (h.onlyHasMoves hb),
    h'.links.trans h.links, h'.pending.trans h.pending, h'.newSites.trans h.newSites⟩

/-- A step that cannot fail, done for every element of a list. -/
theorem run_forM_lift {σ α : Type} (f : α → StateM σ PUnit) (xs : List α) (s : σ) :
    (xs.forM fun x => (liftM (f x) : ExceptT Failure (StateM σ) PUnit)).run.run s =
      (.ok ⟨⟩, ((xs.forM f).run s).2) := by
  induction xs generalizing s with
  | nil => rfl
  | cons x xs ih => exact ih ((f x).run s).2

namespace Build

open Builder (KeepsOnlyMoves)

variable {p : Program} {cid : ContextId} {moves : List SummaryEdge} {b : Builder} {m : MethodSig}
  {f : FuncId}

theorem nodeOf_keepsOnlyMoves {e : Entity} (he : p.IsFlat e) (hb : b.links = []) :
    Spec (KeepsOnlyMoves p cid moves) (nodeOf p cid e) b fun n b' => b'.pag.entity? n = some e := by
  obtain ⟨kind, hbase, hrun⟩ := nodeOf_of_isFlat cid he hb
  unfold Spec
  rw [hrun]
  exact ⟨⟨b.pag.addNode_extends _ e kind, fun h => h.addNode he hbase, rfl, rfl, rfl⟩,
    Pag.entity?_of_find? (b.pag.find?_addNode _ e kind)⟩

/-- Afterwards the move is drawn. -/
theorem layEdge_keepsOnlyMoves {move : SummaryEdge} (hmove : move ∈ moves) (hs : p.IsFlat move.src)
    (hd : p.IsFlat move.dst) (hb : b.links = []) :
    Spec (KeepsOnlyMoves p cid moves) (layEdge p cid move) b fun _ b' =>
      ∃ e ∈ b'.pag.edges, b'.pag.IsEdgeOf e move := by
  refine .bind (nodeOf_keepsOnlyMoves hs hb) fun n b₁ h₁ hn => ?_
  refine .bind (nodeOf_keepsOnlyMoves hd (h₁.links.trans hb)) fun n' b₂ h₂ hn' => .discard ?_
  have hn₂ := h₂.pag.entity? hn
  have hlt : ∀ {n e}, b₂.pag.entity? n = some e → n < b₂.pag.nodes.size := by
    intro n e hn
    obtain ⟨x, hx, -⟩ := Option.map_eq_some_iff.1 hn
    exact Pag.node?_lt hx
  have hg := b₂.pag.addEdge_extends move.kind n n'
  unfold Spec
  rw [Builder.run_addEdge]
  refine ⟨⟨hg, fun h => h.addEdge hmove hn₂ hn', rfl, rfl, rfl⟩, ⟨move.kind, n, n'⟩, ?_, ?_⟩
  · exact Pag.mem_edges_of_addEdge (hlt hn₂) (hlt hn')
  · exact ⟨rfl, hg.entity? hn₂, hg.entity? hn'⟩

theorem layEdges_keepsOnlyMoves (cid : ContextId)
    (hflat : ∀ move ∈ moves, p.IsFlat move.src ∧ p.IsFlat move.dst) (hb : b.links = []) :
    Spec (KeepsOnlyMoves p cid moves) (moves.forM (layEdge p cid)) b fun _ b' =>
      ∀ move ∈ moves, ∃ e ∈ b'.pag.edges, b'.pag.IsEdgeOf e move := by
  refine .forM ?_ fun move hmove b₁ h₁ => ?_
  · rintro move b₁ b₂ h ⟨e, he, hedge⟩
    exact ⟨e, h.pag.edge he, hedge.mono h.pag⟩
  · exact layEdge_keepsOnlyMoves hmove (hflat move hmove).1 (hflat move hmove).2 (h₁.links.trans hb)

/-! ## Entries -/

/-- The builder with the method taken up and summarised. -/
def takenUp (b : Builder) (cid : ContextId) (f : FuncId) (moves : List SummaryEdge) : Builder :=
  { b with
    built := (cid, f) :: b.built
    summaries := b.summaries ++ [(f, { func := f, edges := moves })] }

theorem run_summarize (hm : b.graph.methodOf? f = some m) (hnone : b.summary? f = none)
    (hmethod : Summarize.method p b.graph f m =
      (.ok (), { summary := { func := f, edges := moves } })) :
    (summarize p f).run.run b = (.ok true,
      { b with summaries := b.summaries ++ [(f, { func := f, edges := moves })] }) := by
  have hfunc : (methodOf f).run.run b = (.ok m, b) := by
    unfold methodOf
    rw [run_get_bind, hm]
    rfl
  unfold summarize
  rw [run_get_bind, hnone]
  dsimp only [Option.isSome_none]
  rw [if_neg Bool.false_ne_true, run_bind_ok (congrArg Prod.fst hfunc), hfunc, run_get_bind,
    hmethod]
  rfl

/-- Whatever the setting, laying out the method lays out its moves. -/
theorem run_instantiate {s : Setting} (cid : ContextId) (hnew : b.built = [])
    (hm : b.graph.methodOf? f = some m) (hnone : b.summaries = [])
    (hmethod : Summarize.method s.program b.graph f m =
      (.ok (), { summary := { func := f, edges := moves } })) :
    (instantiate s f cid).run.run b =
      (.ok (), ((moves.forM (layEdge s.program cid)).run (takenUp b cid f moves)).2) := by
  have hsummarize := run_summarize (b := { b with built := (cid, f) :: b.built }) hm
    (by simp [Builder.summary?, hnone]) hmethod
  have hlayOut : (layOut s cid { func := f, edges := moves }).run.run (takenUp b cid f moves) =
      (.ok (), ((moves.forM (layEdge s.program cid)).run (takenUp b cid f moves)).2) := by
    have hmoves := run_forM_lift (layEdge s.program cid) moves (takenUp b cid f moves)
    unfold layOut
    rw [run_bind_ok (congrArg Prod.fst hmoves), hmoves]
    rfl
  have hfound : (takenUp b cid f moves).summary? f = some { func := f, edges := moves } := by
    simp [takenUp, Builder.summary?, hnone]
  rw [run_instantiate_of_not_built (by simp [hnew]), run_bind_ok (congrArg Prod.fst hsummarize),
    hsummarize, run_get_bind]
  rw [show ({ b with built := _, summaries := _ } : Builder).summary? f = _ from hfound]
  exact hlayOut

theorem run_enterEntry (s : Setting) (b : Builder) (f : FuncId) : (enterEntry s f).run.run b =
    (drain s s.fuel >>= fun _ => pure (b.contexts.entry f).1 : TryBuild ContextId).run.run { b with
      contexts := (b.contexts.entry f).2
      pending := b.pending ++ [(f, (b.contexts.entry f).1)] } :=
  rfl

/-- A method that waits alone, and asks for no other. -/
theorem run_drain {s : Setting} {b₁ : Builder} (hpending : b.pending = [(f, cid)])
    (hrun : (instantiate s f cid).run.run { b with pending := [] } = (.ok (), b₁))
    (hdone : b₁.pending = []) (n : Nat) : (drain s (n + 1)).run.run b = (.ok (), b₁) := by
  have hstart : (drain s (n + 1)).run.run b =
      (instantiate s f cid >>= fun _ => drain s n).run.run { b with pending := [] } := by
    rw [drain, run_get_bind, hpending]
    rfl
  rw [hstart, run_bind_ok (congrArg Prod.fst hrun), hrun]
  exact drain_stops.stop n hdone

/-- An entry takes fuel. -/
theorem enterEntry_starves {s : Setting} (hfuel : s.fuel = 0) : Starves (enterEntry s f) b := by
  unfold Starves
  rw [run_enterEntry, hfuel]
  exact Starves.bind (congrArg Prod.fst (drain_stops.starve (by simp))) _

/-- The method is laid out as an entry. This draws its moves and nothing else. -/
theorem enterEntry_of_onlyCopies (h : p.OnlyCopies m) (hm : b.graph.methodOf? f = some m)
    (hsummaries : b.summaries = []) (hbuilt : b.built = []) (hpending : b.pending = [])
    (hlinks : b.links = []) : ∃ moves b₁, p.MovesOf (p.stmtsOf m) moves ∧
      KeepsOnlyMoves p (b.contexts.entry f).1 moves b b₁ ∧
      (∀ move ∈ moves, ∃ e ∈ b₁.pag.edges, b₁.pag.IsEdgeOf e move) ∧
      ∀ s : Setting, s.program = p → s.fuel ≠ 0 →
        (enterEntry s f).run.run b = (.ok (b.contexts.entry f).1, b₁) := by
  obtain ⟨moves, hmoves, hmethod⟩ := Summarize.method_of_onlyCopies h b.graph f
  let cid := (b.contexts.entry f).1
  let b₀ : Builder := { b with contexts := (b.contexts.entry f).2, pending := [] }
  have hflat : ∀ move ∈ moves, p.IsFlat move.src ∧ p.IsFlat move.dst := by
    intro move hmove
    obtain ⟨stmt, -, q, src, hm, rfl⟩ := (hmoves move).1 hmove
    exact hm.isFlat
  have hstart : KeepsOnlyMoves p cid moves b (takenUp b₀ cid f moves) :=
    ⟨.rfl, fun h => h, rfl, hpending.symm, rfl⟩
  obtain ⟨hlay, hdrawn⟩ := layEdges_keepsOnlyMoves (b := takenUp b₀ cid f moves) cid hflat hlinks
  have hall := trans_of (KeepsOnlyMoves p cid moves) hstart hlay
  refine ⟨moves, _, hmoves, hall, hdrawn, ?_⟩
  rintro s rfl hfuel
  obtain ⟨n, hn⟩ := Nat.exists_eq_succ_of_ne_zero hfuel
  have hrun := run_instantiate (s := s) (b := b₀) cid hbuilt hm hsummaries hmethod
  have hdrain := run_drain (b := { b₀ with pending := b.pending ++ [(f, cid)] })
    (by rw [hpending]; rfl) hrun (hall.pending.trans hpending) n
  rw [run_enterEntry, hn, run_bind_ok (congrArg Prod.fst hdrain), hdrain]
  rfl

end Build

end PointsTo
