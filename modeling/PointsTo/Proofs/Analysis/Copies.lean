import PointsTo.Proofs.Analysis.Scale
import PointsTo.Proofs.Builder.Copies
import PointsTo.Proofs.Lockstep.Answers

/-!
# Programs that only copy

If the entry only copies, there are no calls to look at and no fields to join. All edges are drawn
when the entry is laid out, and from then on an analysis only passes facts on
(`Analysis.AddsOnlyFacts`). So it completes, and what it finds is the least solution of the
inclusions that the statements ask for (`onlyCopies_exact`).
-/

namespace PointsTo

namespace Pag.OnlyHasMoves

variable {p : Program} {cid : ContextId} {moves : List SummaryEdge} {g : Pag}

theorem refsOf_eq_nil (h : g.OnlyHasMoves p cid moves) (n : NodeId) : g.refsOf n = [] := by
  refine List.eq_nil_iff_forall_not_mem.2 fun r hr => ?_
  obtain ⟨-, key, x, hx, -, hkind⟩ := mem_refsOf.1 hr
  have hbase := (h.node hx).base
  rw [hkind] at hbase
  cases hbase

theorem sitesOf_eq_nil (h : g.OnlyHasMoves p cid moves) (n : NodeId) : g.sitesOf n = [] := by
  refine List.eq_nil_iff_forall_not_mem.2 fun site hs => ?_
  obtain ⟨x, hx, hs⟩ := mem_sitesOf.1 hs
  rw [(h.node hx).sites] at hs
  cases hs

theorem addPts (h : g.OnlyHasMoves p cid moves) (n : NodeId) (objs : ObjSet) :
    (g.addPts n objs).OnlyHasMoves p cid moves where
  node := fun {m x} hx => by
    unfold Pag.addPts at hx
    rw [node?_modify] at hx
    split at hx
    · obtain ⟨y, hy, rfl⟩ := Option.map_eq_some_iff.1 hx
      exact ⟨(h.node hy).entity, (h.node hy).context, (h.node hy).sites, (h.node hy).base⟩
    · exact h.node hx
  edge := fun he => by
    obtain ⟨move, hmove, hedge⟩ := h.edge he
    exact ⟨move, hmove, hedge.mono (g.addPts_extends n objs)⟩

end Pag.OnlyHasMoves

namespace Analysis

open Build Filter

variable {s : Setting} {p : Program} {g : CallGraph} {cid : ContextId} {moves : List SummaryEdge}
  {scale : Scale} {k objects : Nat} {a a' : Analysis}

/-! ## Nothing but facts -/

/-- The graph has just the moves, and no calls are noted. -/
structure OnlyHasMoves (p : Program) (cid : ContextId) (moves : List SummaryEdge) (a : Analysis) :
    Prop where
  onlyHasMoves : a.pag.OnlyHasMoves p cid moves
  arrivals : a.arrivals = #[]
  newSites : a.builder.newSites = #[]

/-- There are more facts, but no more nodes, and it is still quiet if it was. -/
structure AddsOnlyFacts (p : Program) (cid : ContextId) (moves : List SummaryEdge)
    (a a' : Analysis) : Prop where
  pag : a.pag.Extends a'.pag
  size : a'.pag.nodes.size = a.pag.nodes.size
  quiet : a.OnlyHasMoves p cid moves → a'.OnlyHasMoves p cid moves

instance : IsPreorder Analysis (AddsOnlyFacts p cid moves) where
  refl _ := ⟨.rfl, rfl, fun h => h⟩
  trans _ _ _ h h' := ⟨h.pag.trans h'.pag, h'.size.trans h.size, fun hq => h'.quiet (h.quiet hq)⟩

theorem AddsOnlyFacts.of_same (hpag : a'.pag = a.pag) (harr : a'.arrivals = a.arrivals)
    (hsites : a'.builder.newSites = a.builder.newSites) : AddsOnlyFacts p cid moves a a' where
  pag := hpag ▸ .rfl
  size := by rw [hpag]
  quiet h := ⟨hpag ▸ h.onlyHasMoves, harr.trans h.arrivals, hsites.trans h.newSites⟩

/-- Nothing is accessed through the node, and no call waits at it. -/
theorem visit_addsOnlyFacts (h : a.OnlyHasMoves p cid moves) (n : NodeId) :
    AddsOnlyFacts p cid moves a (visit p a n) := by
  have h₁ := (passThis_passSteps (p := p) (n := n) (a := a)).1
  have hjoin : (passThis p a n).joinFields n = passThis p a n := by
    unfold joinFields
    rw [h₁.pag, h.onlyHasMoves.refsOf_eq_nil]
    rfl
  have h₂ : PassSteps p n a (preVisit p a n) := by
    unfold preVisit
    rw [hjoin]
    exact trans_of (PassSteps p n) h₁ passCopies_passSteps.1
  have hvisited := h₂.steps.visited
  rw [visit_eq]
  generalize preVisit p a n = a₂ at h₂ hvisited ⊢
  have hpag : (a₂.settle n).pag = a.pag.addPts n (a₂.facts.freshOf n) := by
    rw [pag_settle, h₂.pag]
  have honly := h.onlyHasMoves.addPts n (a₂.facts.freshOf n)
  have harr : (a₂.settle n).arrivals = a.arrivals := by
    rw [arrivals_settle, hpag, honly.sitesOf_eq_nil n]
    exact hvisited.arrivals
  have hsites : (a₂.settle n).builder.newSites = a.builder.newSites := by
    rw [builder_settle, hvisited.builder]
  exact {
    pag := hpag ▸ a.pag.addPts_extends n _
    size := by rw [hpag, Pag.size_addPts]
    quiet := fun h => ⟨hpag ▸ honly, harr.trans h.arrivals, hsites.trans h.newSites⟩ }

theorem propagate_addsOnlyFacts (fuel : Nat) (h : a.OnlyHasMoves p cid moves) :
    TrySpec (AddsOnlyFacts p cid moves) (propagate p fuel) a fun _ _ => True := by
  induction fuel generalizing a with
  | zero =>
    refine .get_bind ?_
    split
    · exact .throw
    · exact .pure trivial
  | succ fuel ih =>
    refine .get_bind ?_
    split
    · exact .pure trivial
    · rename_i n rest _
      have hqueue : AddsOnlyFacts p cid moves a { a with queue := rest } := .of_same rfl rfl rfl
      refine .modify_bind hqueue (.get_bind ?_)
      have h₁ := hqueue.quiet h
      split
      · refine .get_bind ?_
        split
        · exact .throw
        · exact .modify_bind (visit_addsOnlyFacts h₁ n) (ih ((visit_addsOnlyFacts h₁ n).quiet h₁))
      · exact ih h₁

theorem seed_addsOnlyFacts (ha : a.Grounded p) : AddsOnlyFacts p cid moves a (seed a).2 := by
  have harr := (seed_seeded ha).1.arrivals
  refine .of_same ?_ harr ?_
  · unfold pag
    rw [builder_seed ha]
  · rw [builder_seed ha]

theorem spread_addsOnlyFacts (ho : RunInvariant s.program scale a)
    (h : a.OnlyHasMoves s.program cid moves) :
    TrySpec (AddsOnlyFacts s.program cid moves) (spread s) a fun _ _ => True := by
  let stats := { a.stats with iterations := a.stats.iterations + 1 }
  have hcount : AddsOnlyFacts s.program cid moves a { a with stats } := .of_same rfl rfl rfl
  have hseed : AddsOnlyFacts s.program cid moves { a with stats } (seed { a with stats }).2 :=
    seed_addsOnlyFacts (ho.countRound stats).valid.grounded
  refine .modify_bind hcount ?_
  refine .bind (P := fun _ a₁ => a₁.OnlyHasMoves s.program cid moves)
    (.modifyGet hseed (hseed.quiet (hcount.quiet h))) fun _ a₁ _ h₁ => ?_
  exact .seq (propagate_addsOnlyFacts s.fuel h₁) fun _ _ _ => .pure trivial

/-! ## Rounds -/

/-- Without calls there is nothing to look at. -/
theorem resolveCalls_idle (harr : a.arrivals = #[]) (hsites : a.builder.newSites = #[])
    (hedges : a.builder.newEdges = #[]) : (resolveCalls s).run.run a = (.ok false, a) := by
  obtain ⟨builder, facts, queue, arrivals, stats⟩ := a
  obtain ⟨pag, graph, contexts, summaries, built, pending, links, singletons, unhandled, newEdges,
    newSites⟩ := builder
  obtain rfl : arrivals = #[] := harr
  obtain rfl : newSites = #[] := hsites
  obtain rfl : newEdges = #[] := hedges
  rfl

theorem dropCalls_idle (harr : a.arrivals = #[]) (hsites : a.builder.newSites = #[]) :
    dropCalls a = a := by
  obtain ⟨builder, facts, queue, arrivals, stats⟩ := a
  obtain ⟨pag, graph, contexts, summaries, built, pending, links, singletons, unhandled, newEdges,
    newSites⟩ := builder
  obtain rfl : arrivals = #[] := harr
  obtain rfl : newSites = #[] := hsites
  rfl

theorem lookOrDrop_idle (harr : a.arrivals = #[]) (hsites : a.builder.newSites = #[])
    (hedges : a.builder.newEdges = #[]) (seeded : Bool) :
    (lookOrDrop s scale seeded).run.run a = (.ok seeded, a) := by
  unfold lookOrDrop
  rw [run_get_bind]
  split
  · have hrun := resolveCalls_idle (s := s) harr hsites hedges
    rw [run_bind_ok (congrArg Prod.fst hrun), hrun, Bool.or_false]
    rfl
  · exact congrArg (Prod.mk (Except.ok seeded)) (dropCalls_idle harr hsites)

/-- A round passes facts on, and there are no calls to look at. -/
theorem round_of_quiet (ho : RunInvariant s.program scale a)
    (h : a.OnlyHasMoves s.program cid moves)
    {seeded : Bool} {t : Analysis} (hspread : (spread s).run.run a = (.ok seeded, t)) :
    (round s scale).run.run a = (.ok seeded, t) := by
  have ht := ((spread_addsOnlyFacts ho h).of_run hspread).1.quiet h
  obtain ⟨-, -, hedges⟩ := ((spread_spec ho).of_run hspread).2
  rw [round_eq, run_bind_ok (congrArg Prod.fst hspread), hspread]
  exact lookOrDrop_idle ht.arrivals ht.newSites hedges seeded

/-- The next round finds nothing to do. -/
theorem round_again (ho : RunInvariant s.program scale a) (h : a.OnlyHasMoves s.program cid moves)
    {seeded : Bool} {t : Analysis} (hspread : (spread s).run.run a = (.ok seeded, t)) :
    ∃ stats, (round s scale).run.run t = (.ok false, { t with stats }) := by
  have ht := ((spread_addsOnlyFacts ho h).of_run hspread).1.quiet h
  obtain ⟨ho', hqueue, hedges⟩ := ((spread_spec ho).of_run hspread).2
  obtain ⟨stats, hidle⟩ := spread_idle (s := s) hqueue hedges
  exact ⟨stats, round_of_quiet ho' ht hidle⟩

/-- If facts can be passed on, two rounds are enough. -/
theorem rounds_of_spread (ho : RunInvariant s.program scale a)
    (h : a.OnlyHasMoves s.program cid moves)
    {seeded : Bool} {t : Analysis} (hspread : (spread s).run.run a = (.ok seeded, t)) (n : Nat) :
    ∃ stats, (rounds s scale (n + 2)).run.run a = (.ok (), { t with stats }) := by
  have hfirst := round_of_quiet ho h hspread
  obtain ⟨stats, hnext⟩ := round_again ho h hspread
  rw [rounds, run_bind_ok (congrArg Prod.fst hfirst), hfirst]
  cases seeded with
  | false => exact ⟨t.stats, rfl⟩
  | true =>
    refine ⟨stats, ?_⟩
    rw [if_pos rfl, rounds, run_bind_ok (congrArg Prod.fst hnext), hnext]
    rfl

/-- However many rounds there are, they end where facts have been passed on. -/
theorem spread_of_rounds (ho : RunInvariant s.program scale a)
    (h : a.OnlyHasMoves s.program cid moves)
    {n : Nat} (hrun : (rounds s scale n).run.run a = (.ok (), a')) :
    ∃ seeded t stats, (spread s).run.run a = (.ok seeded, t) ∧ a' = { t with stats } := by
  obtain ⟨more, b, hround, ⟨seeded, t, hspread, -⟩, hrest⟩ := rounds_eq_ok hrun
  rw [round_of_quiet ho h hspread] at hround
  cases hround
  obtain ⟨stats, hnext⟩ := round_again ho h hspread
  rcases hrest with ⟨-, rfl⟩ | ⟨-, n, hrest⟩
  · exact ⟨_, _, _, hspread, rfl⟩
  · obtain ⟨more', b', hround', -, hrest'⟩ := rounds_eq_ok hrest
    rw [hnext] at hround'
    cases hround'
    obtain ⟨-, rfl⟩ := hrest'.resolve_right fun h => Bool.false_ne_true h.1
    exact ⟨_, _, _, hspread, rfl⟩

/-! ## Whole runs -/

/-- The graph has the statements of the method, all of them and nothing else. -/
structure OnlyMovesOf (p : Program) (m : MethodSig) (cid : ContextId) (moves : List SummaryEdge)
    (a : Analysis) : Prop extends OnlyHasMoves p cid moves a where
  movesOf : p.MovesOf (p.stmtsOf m) moves
  moveEdge : ∀ move ∈ moves, ∃ e ∈ a.pag.edges, a.pag.IsEdgeOf e move

variable {m : MethodSig} {f : FuncId}

theorem AddsOnlyFacts.onlyMovesOf (h : AddsOnlyFacts p cid moves a a')
    (hd : OnlyMovesOf p m cid moves a) : OnlyMovesOf p m cid moves a' where
  toOnlyHasMoves := h.quiet hd.toOnlyHasMoves
  movesOf := hd.movesOf
  moveEdge move hmove := by
    obtain ⟨e, he, hedge⟩ := hd.moveEdge move hmove
    exact ⟨e, h.pag.edge he, hedge.mono h.pag⟩

theorem run_enterEntries (hentries : a.builder.graph.entries = [f]) :
    (enterEntries s).run.run a =
      (build (enterEntry s f) >>= fun _ => pure () : TryAnalysis Unit).run.run a := by
  unfold enterEntries
  rw [run_get_bind, hentries]
  have hdiscard : (discard (build (enterEntry s f)) : TryAnalysis PUnit) =
      build (enterEntry s f) >>= fun _ => pure ⟨⟩ := map_eq_pure_bind (m := TryAnalysis) _ _
  show (discard (build (enterEntry s f)) >>= fun _ => pure ⟨⟩ : TryAnalysis PUnit).run.run a = _
  rw [hdiscard, bind_assoc]
  rfl

/-- Entering the method draws its statements, if there is fuel. -/
theorem enterEntries_of_onlyCopies (h : p.OnlyCopies m) (hentries : g.entries = [f])
    (hm : g.methodOf? f = some m) (c : Config) : ∃ cid moves a₁, OnlyMovesOf p m cid moves a₁ ∧
      ∀ s : Setting, s.program = p → ∀ a', (enterEntries s).run.run (ofGraph g c) = (.ok (), a') ↔
        s.fuel ≠ 0 ∧ a' = a₁ := by
  let a := ofGraph g c
  obtain ⟨moves, b₁, hmoves, honly, hdrawn, hrun⟩ :=
    enterEntry_of_onlyCopies (b := a.builder) h hm rfl rfl rfl rfl
  refine ⟨_, moves, { a with builder := b₁ },
    ⟨⟨honly.onlyHasMoves ?_, rfl, honly.newSites⟩, hmoves, hdrawn⟩, fun s hs a' => ?_⟩
  · exact ⟨fun hx => by simp [a, ofGraph, Builder.ofGraph, Pag.node?] at hx,
      fun he => by simp [a, ofGraph, Builder.ofGraph] at he⟩
  · rw [run_enterEntries hentries]
    by_cases hfuel : s.fuel = 0
    · have hstarves : Starves (build (enterEntry s f)) a := enterEntry_starves hfuel
      refine ⟨fun hok => ?_, fun h => absurd hfuel h.1⟩
      rw [run_bind_error hstarves] at hok
      cases hok
    · have hbuild : (build (enterEntry s f)).run.run a =
          (((enterEntry s f).run.run a.builder).1,
            { a with builder := ((enterEntry s f).run.run a.builder).2 }) := rfl
      rw [hrun s hs hfuel] at hbuild
      rw [run_bind_ok (congrArg Prod.fst hbuild), hbuild]
      refine ⟨fun hok => ?_, ?_⟩
      · cases hok
        exact ⟨hfuel, rfl⟩
      · rintro ⟨-, rfl⟩
        rfl

/-- No more nodes, so no more objects, and passing facts on comes to an end. -/
theorem spread_succeeds (ho : RunInvariant s.program scale a) (hc : WithinBounds s.program g k a)
    (h : a.OnlyHasMoves s.program cid moves) : ∃ seeded t, ∀ᶠ n in atTop,
      (spread (s.withFuel n)).run.run a = (.ok seeded, t) := by
  have hends : Terminates (fun _ => False) (KeepsConfined s.program g) (Exceeds a.pag.nodes.size)
      (fun n => spread (s.withFuel n)) a fun _ _ => True := spread_terminates ho hc
  have hcard : ∀ g : Pag, g.objects.card ≤ g.nodes.size := fun g =>
    (Finset.card_filter_le _ _).trans_eq (Finset.card_range _)
  obtain ⟨⟨x, t⟩, hrun, hfails⟩ := hends.settles fun n => by
    have hadds := (spread_addsOnlyFacts (s := s.withFuel n) ho h).1
    exact Nat.not_lt.2 ((hcard _).trans_eq hadds.size)
  cases x with
  | ok seeded => exact ⟨seeded, t, hrun⟩
  | error e => exact (hfails e rfl).elim

/-- With enough fuel, the analysis succeeds. -/
theorem solve_succeeds (h : p.OnlyCopies m) (seed : Seed) (c : Config) : ∀ᶠ fuel in atTop, ∃ a,
    (solve { program := p, models := LibraryModel.standard, fuel } c.scale).run.run
      (ofGraph (seed.graph p [m]) c) = (.ok (), a) := by
  let s : Setting := { program := p, models := LibraryModel.standard, fuel := 1 }
  obtain ⟨f, hentries, hm⟩ := seed.graph_entry p m
  obtain ⟨cid, moves, a₁, honly, henter⟩ := enterEntries_of_onlyCopies h hentries hm c
  obtain ⟨ho₁, hc₁⟩ := runInvariant_entered (s := s) rfl c.scale
    ((henter s rfl a₁).2 ⟨Nat.one_ne_zero, rfl⟩)
  obtain ⟨seeded, t, hspread⟩ := spread_succeeds (s := s) ho₁ hc₁ honly.toOnlyHasMoves
  filter_upwards [hspread, eventually_ge_atTop 2] with fuel hspread hfuel
  obtain ⟨n, rfl⟩ := Nat.exists_eq_add_of_le' hfuel
  have hfirst := (henter (s.withFuel (n + 2)) rfl a₁).2 ⟨by simp [Setting.withFuel], rfl⟩
  obtain ⟨stats, hrounds⟩ :=
    rounds_of_spread (s := s.withFuel (n + 2)) ho₁ honly.toOnlyHasMoves hspread n
  refine ⟨collectStats { t with stats }, ?_⟩
  show (solve (s.withFuel (n + 2)) c.scale).run.run _ = _
  rw [solve_eq, run_bind_ok (congrArg Prod.fst hfirst), hfirst]
  show (rounds (s.withFuel (n + 2)) c.scale (n + 2) >>= fun _ => modify collectStats).run.run a₁ = _
  rw [run_bind_ok (congrArg Prod.fst hrounds), hrounds]
  rfl

/-- A run that completes ends with a graph of the statements. -/
theorem Completes.onlyMovesOf {seed : Seed} {c : Config} (h : p.OnlyCopies m)
    (hcompletes : Completes p seed [m] c a) : ∃ cid moves, OnlyMovesOf p m cid moves a ∧
      a.builder.Confined p (seed.graph p [m]) ∧ a.Canonical := by
  obtain ⟨fuel, hsolved⟩ := hcompletes.solved
  let s : Setting := { program := p, models := LibraryModel.standard, fuel }
  obtain ⟨f, hentries, hm⟩ := seed.graph_entry p m
  obtain ⟨cid, moves, a₁, honly, henter⟩ := enterEntries_of_onlyCopies h hentries hm c
  obtain ⟨_, a₂, hfirst, hrounds, rfl⟩ := solve_eq_ok (s := s) hsolved
  obtain ⟨-, rfl⟩ := (henter s rfl _).1 hfirst
  obtain ⟨ho₁, hc₁⟩ := runInvariant_entered (s := s) rfl c.scale hfirst
  obtain ⟨seeded, t, stats, hspread, rfl⟩ := spread_of_rounds ho₁ honly.toOnlyHasMoves hrounds
  have hadds := ((spread_addsOnlyFacts ho₁ honly.toOnlyHasMoves).of_run hspread).1
  have hc := ((spread_keepsConfined ho₁ hc₁).of_run hspread).2
  have hd := hadds.onlyMovesOf honly
  exact ⟨cid, moves, ⟨⟨hd.onlyHasMoves, hd.arrivals, hd.newSites⟩, hd.movesOf, hd.moveEdge⟩,
    hc.confined, { hc.canonical with iterations := rfl, stats := fun _ => rfl }⟩

/-! ## What is found -/

/-- What the nodes of a place point to, by the values that allocate it. -/
def found (a : Analysis) (q : Place) : Set ValueId :=
  {v | ∃ n o, a.pag.entity? n = some q.entity ∧ a.pag.entity? o = some (.value v) ∧
    o ∈ a.pag.ptsOf n}

theorem mem_pointsTo {v : ValueId} {o : NodeId} : o ∈ a.pointsTo v ↔
    ∃ n, a.pag.entity? n = some (.value v) ∧ o ∈ a.pag.ptsOf n := by
  have join : ∀ (nodes : List NodeId) (s : ObjSet),
      o ∈ nodes.foldl (fun s n => (s.union (((a.pag.node? n).map Node.pts).getD s.clear)).2) s ↔
        o ∈ s ∨ ∃ n ∈ nodes, o ∈ a.pag.ptsOf n := by
    intro nodes
    induction nodes with
    | nil => simp
    | cons n nodes ih =>
      intro s
      have hn : o ∈ ((a.pag.node? n).map Node.pts).getD s.clear ↔ o ∈ a.pag.ptsOf n := by
        rw [Pag.mem_ptsOf]
        cases a.pag.node? n with
        | none => simp
        | some x => simp
      simp only [List.foldl_cons, ih, ObjSet.mem_union, hn, List.mem_cons, exists_eq_or_imp,
        or_assoc]
  unfold pointsTo
  rw [join]
  simp [Pag.mem_nodesOf]

namespace OnlyMovesOf

variable {n n' o : NodeId} {e : Entity}

/-- No two nodes stand for the same. -/
theorem unique (h : OnlyMovesOf p m cid moves a) (hb : a.builder.Confined p g)
    (hn : a.pag.entity? n = some e) (hn' : a.pag.entity? n' = some e) : n = n' := by
  obtain ⟨x, hx, rfl⟩ := Option.map_eq_some_iff.1 hn
  obtain ⟨x', hx', heq⟩ := Option.map_eq_some_iff.1 hn'
  refine hb.pag.unique hx hx' ?_ heq.symm
  rw [(h.onlyHasMoves.node hx).context a.pag, (h.onlyHasMoves.node hx').context a.pag, heq]

/-- An edge of the graph is what a statement moves. -/
theorem move (h : OnlyMovesOf p m cid moves a) {e : FlowEdge} (he : e ∈ a.pag.edges) :
    ∃ stmt ∈ p.stmtsOf m, ∃ q src, p.Moves stmt q src ∧ e.kind = src.kind ∧
      a.pag.entity? e.src = some src.entity ∧ a.pag.entity? e.dst = some q.entity := by
  obtain ⟨move, hmove, hedge⟩ := h.onlyHasMoves.edge he
  obtain ⟨stmt, hstmt, q, src, hm, rfl⟩ := (h.movesOf move).1 hmove
  exact ⟨stmt, hstmt, q, src, hm, hedge.kind, hedge.src, hedge.dst⟩

/-- What a statement moves has an edge. -/
theorem edge (h : OnlyMovesOf p m cid moves a) {stmt : StmtId} (hstmt : stmt ∈ p.stmtsOf m)
    {q : Place} {src : Source} (hm : p.Moves stmt q src) : ∃ n n', ⟨src.kind, n, n'⟩ ∈ a.pag.edges ∧
      a.pag.entity? n = some src.entity ∧ a.pag.entity? n' = some q.entity := by
  obtain ⟨⟨kind, n, n'⟩, he, hedge⟩ :=
    h.moveEdge _ ((h.movesOf _).2 ⟨stmt, hstmt, q, src, hm, rfl⟩)
  obtain rfl : kind = src.kind := hedge.kind
  exact ⟨n, n', he, hedge.src, hedge.dst⟩

/-- Every solution has what is derived. -/
theorem derived (h : OnlyMovesOf p m cid moves a) (hd : a.pag.Derives p o n) :
    ∃ v q, a.pag.entity? o = some (.value v) ∧ a.pag.entity? n = some q.entity ∧
      v ∈ p.contents m q := by
  have hsolution := (p.isLeast_contents m).1
  induction hd with
  | address he =>
    obtain ⟨stmt, hstmt, q, src, hm, hkind, hsrc, hdst⟩ := h.move he
    cases src with
    | object v => exact ⟨v, q, hsrc, hdst, hsolution stmt hstmt q _ hm rfl⟩
    | place q' => cases hkind
  | pass _ hpass ih =>
    obtain ⟨v, q', ho, hq', hv⟩ := ih
    -- The edges that are neither copies nor allocations are not of this program.
    have hedge : ∀ {kind n n'}, ⟨kind, n, n'⟩ ∈ a.pag.edges → kind ≠ .address →
        a.pag.entity? n = some q'.entity →
          ∃ q, a.pag.entity? n' = some q.entity ∧ v ∈ p.contents m q := by
      intro kind n n' he hne hn
      obtain ⟨stmt, hstmt, q, src, hm, hkind, hsrc, hdst⟩ := h.move he
      cases src with
      | object v' => exact absurd hkind hne
      | place q'' =>
        have heq : q'' = q' := Place.entity_injective (Option.some.inj (hsrc.symm.trans hn))
        exact ⟨q, hdst, hsolution stmt hstmt q _ hm (heq ▸ hv)⟩
    obtain ⟨q, hq, hv⟩ : ∃ q, a.pag.entity? _ = some q.entity ∧ v ∈ p.contents m q := by
      rcases hpass with he | he | ⟨he, -⟩
      · exact hedge he nofun hq'
      · exact hedge he nofun hq'
      · exact hedge he nofun hq'
    exact ⟨v, q, ho, hq, hv⟩

/-- What a local may point to is an object of the program, and is found. -/
theorem exists_found (h : OnlyMovesOf p m cid moves a) (hf : Finished p scale a) {x : ValueId}
    (ho : o ∈ a.pointsTo x) : ∃ v, a.pag.entity? o = some (.value v) ∧ v ∈ a.found (.var x) := by
  obtain ⟨n, hn, hmem⟩ := mem_pointsTo.1 ho
  have hgrounded := hf.valid.grounded
  obtain ⟨v, -, hv, -⟩ := h.derived (hgrounded.derived (hgrounded.exposed hmem))
  exact ⟨v, hv, n, o, hn, hv, hmem⟩

/-- What is found is a solution. -/
theorem satisfies (h : OnlyMovesOf p m cid moves a) (hb : a.builder.Confined p g)
    (hf : Finished p scale a) : p.Satisfies m a.found := by
  intro stmt hstmt q src hm v hv
  obtain ⟨n, n', he, hn, hn'⟩ := h.edge hstmt hm
  cases src with
  | object v' =>
    obtain rfl : v = v' := hv
    exact ⟨n', n, hn', hn, hf.address he⟩
  | place q' =>
    obtain ⟨i, o, hi, ho, hmem⟩ := hv
    obtain rfl := h.unique hb hi hn
    exact ⟨n', o, hn', ho, hf.copy (Or.inl he) hmem⟩

/-- What is found is the least solution. -/
theorem found_eq (h : OnlyMovesOf p m cid moves a) (hb : a.builder.Confined p g)
    (hf : Finished p scale a) : a.found = p.contents m := by
  refine funext fun q => Set.Subset.antisymm ?_ (p.contents_le (h.satisfies hb hf) q)
  rintro v ⟨n, o, hn, ho, hmem⟩
  have hgrounded := hf.valid.grounded
  obtain ⟨v', q', ho', hn', hv⟩ := h.derived (hgrounded.derived (hgrounded.exposed hmem))
  rw [ho] at ho'
  rw [hn] at hn'
  cases ho'
  cases Place.entity_injective (Option.some.inj hn')
  exact hv

/-- What a local may point to are the objects that are found for it. -/
theorem pointsTo_eq (h : OnlyMovesOf p m cid moves a) (hf : Finished p scale a) (x : ValueId) :
    {e | ∃ o ∈ a.pointsTo x, a.pag.entity? o = e} =
      (fun v => some (.value v)) '' a.found (.var x) := by
  ext e
  constructor
  · rintro ⟨o, ho, rfl⟩
    obtain ⟨v, hv, hmem⟩ := h.exists_found hf ho
    exact ⟨v, hmem, hv.symm⟩
  · rintro ⟨v, ⟨n, o, hn, ho, hmem⟩, rfl⟩
    exact ⟨o, mem_pointsTo.2 ⟨n, hn, hmem⟩, ho⟩

/-- Two locals may point to one object if there is one that is found for both. -/
theorem mayAlias_iff (h : OnlyMovesOf p m cid moves a) (hb : a.builder.Confined p g)
    (hcanonical : a.Canonical) (hf : Finished p scale a) (x y : ValueId) :
    a.mayAlias x y = true ↔ (a.found (.var x) ∩ a.found (.var y)).Nonempty := by
  have hset : ∀ v, (a.pointsTo v).Canonical := fun v => (hcanonical.pointsTo v).left
  unfold mayAlias
  rw [(hset x).intersects_iff (hset y)]
  constructor
  · rintro ⟨o, hx, hy⟩
    obtain ⟨v, hv, hmem⟩ := h.exists_found hf hx
    obtain ⟨w, hw, hmem'⟩ := h.exists_found hf hy
    cases hv.symm.trans hw
    exact ⟨v, hmem, hmem'⟩
  · rintro ⟨v, ⟨n, o, hn, ho, hmem⟩, n', o', hn', ho', hmem'⟩
    -- There is only one node for what `v` allocates.
    obtain rfl := h.unique hb ho ho'
    exact ⟨o, mem_pointsTo.2 ⟨n, hn, hmem⟩, mem_pointsTo.2 ⟨n', hn', hmem'⟩⟩

end OnlyMovesOf

/-- Without a report, a run is over when it is solved. -/
theorem start_of_solve {c : Config} (hreport : c.report.isEnabled = false)
    (hrun : (solve s c.scale).run.run a = (.ok (), a')) (d : Disk) :
    start s c a d = (.ok (), a', d) := by
  have hsolve : (solve s c.scale).run a = (.ok (), a') := hrun
  unfold start
  rw [hsolve]
  simp [hreport]

/-- If a method only copies, an analysis that starts with it succeeds, given enough fuel. It finds
what the least solution has: the objects that a local may point to are those that it holds, each by
the value that allocates it, and two locals may point to one object if there is one that both of
them hold. -/
theorem onlyCopies_exact (seed : Seed) {c : Config} (h : p.OnlyCopies m)
    (hreport : c.report.isEnabled = false) :
    (∀ᶠ fuel in atTop, ∀ d, ∃ a, start { program := p, models := LibraryModel.standard, fuel } c
      (ofGraph (seed.graph p [m]) c) d = (.ok (), a, d)) ∧
    ∀ a, Completes p seed [m] c a →
      (∀ x, {e | ∃ o ∈ a.pointsTo x, a.pag.entity? o = e} =
        (fun v => some (.value v)) '' p.contents m (.var x)) ∧
      ∀ x y, a.mayAlias x y = true ↔
        (p.contents m (.var x) ∩ p.contents m (.var y)).Nonempty := by
  refine ⟨?_, fun a ha => ?_⟩
  · filter_upwards [solve_succeeds h seed c] with fuel ⟨a, hrun⟩ d
    exact ⟨a, start_of_solve hreport hrun d⟩
  · obtain ⟨cid, moves, hd, hb, hcanonical⟩ := ha.onlyMovesOf h
    rw [← hd.found_eq hb ha.finished]
    exact ⟨hd.pointsTo_eq ha.finished, hd.mayAlias_iff hb hcanonical ha.finished⟩

namespace Sample

open Program

/-- `a = new Object; b = new Object; x = a; y = x; x = y; z = b as any; A.f = z; w = A.f; y = w` -/
def roundabout : Program :=
  copyProgram file [.new "a" (.builtin "Object"), .new "b" (.builtin "Object"), .copy "x" "a",
    .copy "y" "x", .copy "x" "y", .cast "z" "b" .any, .store (.builtin "A") "f" "z",
    .load "w" (.builtin "A") "f", .copy "y" "w"]

end Sample

open Sample

/-- In `roundabout`, `x` holds the object that `w` has from the static field, and `a` does not. -/
theorem onlyCopies_exact_roundabout : roundabout.OnlyCopies main ∧ (default : Config).Valid ∧
    (roundabout.contents main (.var 4) ∩ roundabout.contents main (.var 9)).Nonempty ∧
    ¬(roundabout.contents main (.var 0) ∩ roundabout.contents main (.var 9)).Nonempty := by
  have h : roundabout.OnlyCopies main := Program.onlyCopies_copyProgram file _
  obtain ⟨hok, hshared, hapart⟩ : (run roundabout).1.isOk = true ∧
      (result roundabout).mayAlias 4 9 = true ∧ (result roundabout).mayAlias 0 9 = false := by
    decide +kernel
  obtain ⟨-, hexact⟩ := onlyCopies_exact .direct (c := default) h rfl
  obtain ⟨-, halias⟩ := hexact _ (completes_result hok)
  refine ⟨h, by decide, (halias 4 9).1 hshared, fun hno => ?_⟩
  rw [(halias 0 9).2 hno] at hapart
  cases hapart

end Analysis

end PointsTo
