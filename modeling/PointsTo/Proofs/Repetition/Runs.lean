import PointsTo.Proofs.Analysis.Binding
import PointsTo.Proofs.Analysis.Driving
import PointsTo.Proofs.Analysis.Stability
import PointsTo.Proofs.Links.Completeness
import PointsTo.Proofs.Repetition.Resolution

/-!
# Calls that are looked at twice

Whenever facts are offered once more, objects arrive again where they have been before, and calls
are looked at for them a second time. If the first time has succeeded, the second one succeeds too
and leaves the analysis as it is (`processSite_idempotent`).

This holds in all states between two calls that are looked at (`Reachable`). A run comes there by
turns (`Turn`): entering an entry, bringing in edges, visiting a node, looking at a call for an
object, and taking what was noted. Runs do nothing else, however they end (`solve_turns`), but
nothing is said here of the order.
-/

namespace PointsTo

/-! ## Builders that are confined -/

namespace Builder

variable {p : Program} {g : CallGraph} {b : Builder}

/-- What is said of a builder stays true if the call graph that it has grown from is taken to name
more methods. -/
theorem Confined.widen (hb : b.Confined p g) (nodes : Array FuncNode) :
    b.Confined p { g with nodes := g.nodes ++ nodes } := by
  have names : ∀ {m}, p.NamesMethod g m → p.NamesMethod { g with nodes := g.nodes ++ nodes } m :=
    fun hm => hm.imp_left fun ⟨f, hf, hm⟩ => ⟨f, Array.mem_append_left _ hf, hm⟩
  exact {
    pag := hb.pag
    node := fun hx =>
      let ⟨hcontext, hentity, hkind⟩ := hb.node hx
      ⟨hcontext, hentity, { hkind with function := fun hfn => (hkind.function hfn).imp_left names }⟩
    contexts := hb.contexts.mono fun {x} hx => by cases x <;> exact hx
    graph := { hb.graph with method := fun hm => names (hb.graph.method hm) }
    summary := fun hs =>
      let ⟨hconfined, hplaced⟩ := hb.summary hs
      ⟨{ hconfined with }, hplaced⟩
    built := hb.built
    pending := hb.pending
    link := hb.link
    logged := hb.logged
    loggedSites := hb.loggedSites }

/-- Setting the entries makes nodes for them. -/
theorem Confined.setEntries (hb : b.Confined p g) (entries : List MethodSig) :
    ∃ g', ({ b with graph := (b.graph.setEntries p entries).2 } : Builder).Confined p g' := by
  let graph := (b.graph.setEntries p entries).2
  have hgrows : b.graph.Grows graph := b.graph.setEntries_grows entries
  have hedges : graph.edges = b.graph.edges :=
    CallGraph.nodesFor_keptByGrowth (P := fun g' => g'.edges = b.graph.edges)
      (fun h => (CallGraph.edges_nodeFor ..).trans h) .blank entries rfl
  have hexp : b.LogsOnlyNew { b with graph } := .of_same .rfl hgrows .rfl rfl rfl rfl
  have hwide := hb.widen graph.nodes
  refine ⟨_, hwide.grow hexp hb.pag (fun hx => Or.inl (Pag.node?_lt hx)) (hwide.properItems hexp) ?_
    Or.inl Or.inl Or.inl Or.inl Or.inl Or.inl⟩
  exact {
    consistent := hb.graph.consistent.setEntries entries
    method := fun hm => by
      obtain ⟨x, hx, hm⟩ := Option.map_eq_some_iff.1 hm
      exact Or.inl ⟨x, Array.mem_append_right _ (Array.mem_of_getElem? hx), hm⟩
    sites := hgrows.sites.trans hb.graph.sites
    dynSites := hgrows.dynSites.trans hb.graph.dynSites
    label := fun hl => hb.graph.label (hl.congr hedges)
    callee := fun site hsite => Nat.lt_of_lt_of_le (hb.graph.callee site hsite) hgrows.size }

/-- An object is there, and so is what it has bound. -/
theorem Confined.hasObject (hb : b.Confined p g) {obj : NodeId} (ho : b.pag.isObject obj = true) :
    b.HasObject obj where
  node := Analysis.lt_of_isObject ho
  function _ hfn :=
    let ⟨hthis, hargs⟩ := Build.boundNodes hb hfn
    ⟨hthis, hargs⟩

end Builder

/-! ## Turns -/

namespace Analysis

variable {s : Setting} {p : Program} {a a' : Analysis} {n obj : NodeId} {site : SiteRef}

/-- One of the things that a run does, whatever comes of it. -/
inductive Turn (s : Setting) (a : Analysis) : Analysis → Prop where
  | enter {f : FuncId} (entry : f ∈ a.builder.graph.entries) :
    Turn s a ((build (Build.enterEntry s f)).run.run a).2
  | seed : Turn s a (seed a).2
  | visit (n : NodeId) : Turn s a (visit s.program a n)
  | look {n obj : NodeId} {site : SiteRef} (waits : site ∈ a.pag.sitesOf n)
      (object : a.pag.isObject obj = true) : Turn s a ((processSite s n site obj).run.run a).2
  /-- What was noted is taken from the queue and the logs. -/
  | take (queue : List NodeId) (newSites : Array (NodeId × SiteRef))
      (arrivals : Array (NodeId × List NodeId)) (stats : Stats)
      (sites : ∀ x ∈ newSites, x ∈ a.builder.newSites) (arrived : ∀ x ∈ arrivals, x ∈ a.arrivals) :
    Turn s a { a.forget newSites arrivals stats with queue }

/-- Any number of turns. -/
def Turns (s : Setting) : Analysis → Analysis → Prop :=
  Relation.ReflTransGen (Turn s)

instance (s : Setting) : IsPreorder Analysis (Turns s) :=
  inferInstanceAs (IsPreorder Analysis (Relation.ReflTransGen (Turn s)))

/-- The states that the user and the turns of runs lead to. -/
inductive Reachable (s : Setting) : Analysis → Prop where
  | start (seed : Seed) (entries : List MethodSig) (c : Config) :
    Reachable s (ofGraph (seed.graph s.program entries) c)
  | setEntries {a : Analysis} (h : Reachable s a) (entries : List MethodSig) :
    Reachable s (a.setEntries s.program entries).2
  | turn {a a' : Analysis} (h : Reachable s a) (turn : Turn s a a') : Reachable s a'

/-- What holds between turns. -/
structure TurnInvariant (p : Program) (a : Analysis) : Prop where
  stable : a.Stable p
  confined : ∃ g, a.builder.Confined p g
  arrived : ∀ {n objs o}, (n, objs) ∈ a.arrivals → o ∈ objs → a.pag.isObject o = true
  targets : a.builder.graph.HasTargets

/-- Nothing has arrived in between. -/
def NoneArrive (a a' : Analysis) : Prop :=
  ∀ x ∈ a'.arrivals, x ∈ a.arrivals

instance : IsPreorder Analysis NoneArrive where
  refl _ _ hx := hx
  trans _ _ _ h h' x hx := h x (h' x hx)

theorem processSite_noneArrive : GuaranteesOn .all NoneArrive (processSite s n site obj) := by
  have hcarries : Lifts AnyChange NoneArrive :=
    ⟨fun _ _ hx => hx, fun _ _ hx => hx, fun _ _ hx => absurd hx (Array.not_mem_empty _)⟩
  exact processSite_lifted hcarries s.lookGuarantees_anyChange

/-! ## What turns keep -/

section Turns

variable (hs : s.IsStandard)
include hs

omit hs in
/-- A turn keeps the builder to `R` if requests do, and entering an entry. -/
theorem Turn.onBuilder {R : Builder → Builder → Prop} [IsPreorder Builder R]
    (hdrives : s.AnalysisGuarantees .all R) (henter : ∀ f ∈ a.builder.graph.entries,
      R a.builder ((Build.enterEntry s f).run.run a.builder).2)
    (h : Turn s a a') : OnBuilder R a a' := by
  cases h with
  | enter entry => exact henter _ entry
  | seed => exact seed_onBuilder hdrives a
  | visit n => exact visit_onBuilder hdrives a n
  | look => exact processSite_lifted onBuilder_lifts hdrives.look a trivial
  | take queue newSites =>
    exact hdrives.draw a.builder a.pag a.builder.newEdges newSites .rfl rfl

/-- What a turn does to the builder are actions. -/
theorem Turn.actions (h : Turn s a a') : OnBuilder (Builder.Actions s.program) a a' :=
  h.onBuilder (analysisGuarantees_actions hs.byActions) fun _ entry =>
    (Build.enterEntry_actions hs.byActions entry).1

theorem Turn.stable (hturn : Turn s a a') (h : a.Stable s.program) : a'.Stable s.program := by
  cases hturn with
  | enter => exact lifts_keepsStable.build (Builder.enterEntry_staysStable hs) a trivial h
  | seed => exact h.seed
  | visit n => exact h.visit n
  | look =>
    exact processSite_lifted lifts_keepsStable (Builder.lookGuarantees_staysStable hs) a trivial h
  | take queue newSites arrivals stats =>
    have hsteps : Steps s.program a { a.forget newSites arrivals stats with queue } :=
      (forget_steps a newSites arrivals stats).tail (.schedule queue arrivals stats)
    refine ⟨hsteps.grounded h.grounded, ?_⟩
    exact { h.canonical with
      builder := { h.canonical.builder with newSites := rfl }
      queue := rfl
      arrivals := rfl
      iterations := rfl
      stats := fun _ => rfl }

theorem Turn.confined (hturn : Turn s a a') (ha : a.Grounded s.program)
    (htargets : a.builder.graph.HasTargets) {g : CallGraph}
    (hb : a.builder.Confined s.program g) : a'.builder.Confined s.program g := by
  cases hturn with
  | @enter f entry =>
    have hends :
      Terminates s.program.IsMisplaced (Builder.KeepsConfined s.program g) (Builder.Exceeds 0)
        (fun k => Build.enterEntry (s.withFuel k) f) a.builder fun _ _ => True :=
      Build.enterEntry_terminates hs hb (htargets.entry f entry)
    exact (hends.runs s.fuel).spec.1.confined hb
  | seed => exact (seed_keepsConfined hb).confined hb
  | visit n => exact (visit_keepsConfined ha hb).confined hb
  | @look n obj site waits object =>
    have hends : Terminates s.program.IsMisplaced (KeepsConfined s.program g) (Exceeds 0)
        (fun k => processSite (s.withFuel k) n site obj) a fun _ _ => True :=
      processSite_terminates hs hb (hb.pag.waits waits) object
    exact (hends.runs s.fuel).spec.1.confined hb
  | take queue newSites arrivals stats sites =>
    exact (Builder.keepsConfined_take a.builder.newEdges newSites
      (fun _ he => he) sites).confined hb

omit hs in
/-- What arrives is an object. -/
theorem Turn.arrived (h : Turn s a a') (ha : a.Grounded s.program) {objs : List NodeId}
    (harr : (n, objs) ∈ a'.arrivals) (ho : obj ∈ objs) :
    (n, objs) ∈ a.arrivals ∨ a'.pag.isObject obj = true := by
  cases h with
  | enter => exact Or.inl harr
  | seed =>
    rw [(seed_seeded ha).1.arrivals] at harr
    exact Or.inl harr
  | visit => exact mem_arrivals_visit ha harr ho
  | look => exact Or.inl (processSite_noneArrive a trivial _ harr)
  | take _ _ _ _ _ arrived => exact Or.inl (arrived _ harr)

theorem Turn.turnInvariant (hturn : Turn s a a') (h : TurnInvariant s.program a) :
    TurnInvariant s.program a' := by
  have hretains := (hturn.actions hs).extends
  have hgrounded := h.stable.grounded
  exact {
    stable := hturn.stable hs h.stable
    confined := h.confined.imp fun g hb => hturn.confined hs hgrounded h.targets hb
    arrived := fun harr ho => (hturn.arrived hgrounded harr ho).elim
      (fun harr => hretains.pag.isObject (h.arrived harr ho)) id
    targets := h.targets.mono hretains.graph.size hretains.entries hretains.graph.sites }

/-- Many turns keep what one turn keeps. -/
theorem Turns.turnInvariant (hturns : Turns s a a') (h : TurnInvariant s.program a) :
    TurnInvariant s.program a' := by
  induction hturns with
  | refl => exact h
  | tail _ hturn ih => exact hturn.turnInvariant hs ih

theorem Turns.extends (h : Turns s a a') : a.builder.Extends a'.builder := by
  induction h with
  | refl => exact .rfl
  | tail _ hturn ih => exact ih.trans (hturn.actions hs).extends

end Turns

theorem TurnInvariant.setEntries (h : TurnInvariant p a) (entries : List MethodSig) :
    TurnInvariant p (a.setEntries p entries).2 where
  stable := h.stable.setEntries entries
  confined := h.confined.elim fun _ hb => hb.setEntries entries
  arrived := h.arrived
  targets := h.targets.setEntries entries

/-- An analysis that has not begun. -/
theorem turnInvariant_start (seed : Seed) (entries : List MethodSig) (c : Config) :
    TurnInvariant p (ofGraph (seed.graph p entries) c) where
  stable := stable_ofGraph (seed.graph_consistent p entries) c
  confined := ⟨_, Builder.confined_ofGraph (seed.graph_consistent p entries)
    (seed.graph_hasTargets p entries) c.backing c.sensitivity c.kLimit⟩
  arrived harr := absurd harr (Array.not_mem_empty _)
  targets := seed.graph_hasTargets p entries

theorem Reachable.turnInvariant (hs : s.IsStandard) (h : Reachable s a) :
    TurnInvariant s.program a := by
  induction h with
  | start seed entries c => exact turnInvariant_start seed entries c
  | setEntries _ entries ih => exact ih.setEntries entries
  | turn _ hturn ih => exact hturn.turnInvariant hs ih

/-! ## Runs are made of turns -/

theorem Turn.trySpec {α : Type} {m : TryAnalysis α} (h : Turn s a (m.run.run a).2) :
    TrySpec (Turns s) m a fun _ _ => True :=
  ⟨.single h, fun _ _ => trivial⟩

/-- Only counters change. -/
theorem Turn.stats (a : Analysis) (stats : Stats) : Turn s a { a with stats } :=
  .take a.queue a.builder.newSites a.arrivals stats (fun _ hx => hx) fun _ hx => hx

theorem propagate_turns (n : Nat) :
    TrySpec (Turns s) (propagate s.program n) a fun _ _ => True := by
  induction n generalizing a with
  | zero =>
    refine .get_bind ?_
    split
    · exact .throw
    · exact .pure trivial
  | succ n ih =>
    refine .get_bind ?_
    split
    · exact .pure trivial
    · rename_i n rest _
      have hpop : Turn s a { a with queue := rest } :=
        .take rest a.builder.newSites a.arrivals a.stats (fun _ hx => hx) fun _ hx => hx
      refine .modify_bind (.single hpop) (.get_bind ?_)
      split
      · refine .get_bind ?_
        split
        · exact .throw
        · exact .modify_bind (.single (.visit n)) ih
      · exact ih

section Runs

variable {scale : Scale} (hs : s.IsStandard)
include hs

theorem lookForEach_turns (hsite : site ∈ a.pag.sitesOf n) {objs : List NodeId}
    (hobjs : ∀ o ∈ objs, a.pag.isObject o = true) :
    TrySpec (Turns s) (objs.forM (processSite s n site)) a fun _ _ => True :=
  .forM_any fun o ho _ h₁ =>
    have hpag := (h₁.extends hs).pag
    Turn.trySpec (.look (hpag.site hsite) (hpag.isObject (hobjs o ho)))

section Underway

variable (h : TurnInvariant s.program a)
include h

/-- Calls are looked at where they wait, for objects. -/
theorem resolveCalls_turns : TrySpec (Turns s) (resolveCalls s) a fun _ _ => True := by
  have htake : Turn s a { a with arrivals := #[] } :=
    .take a.queue a.builder.newSites #[] a.stats (fun _ hx => hx) fun _ hx =>
      absurd hx (Array.not_mem_empty _)
  refine .get_bind (.modify_bind (.single htake) ?_)
  refine .seq (.forM_any fun x hx a₁ h₁ => .get_bind ?_) fun _ a₁ h₁ => .get_bind ?_
  · refine .forM_any fun site hsite a₂ h₂ => ?_
    refine lookForEach_turns hs ((h₂.extends hs).pag.site hsite) fun o ho => ?_
    have hobj := h.arrived (Array.mem_toList_iff.1 hx) ho
    exact (h₂.extends hs).pag.isObject ((h₁.extends hs).pag.isObject hobj)
  · have hunderway := h₁.turnInvariant hs (htake.turnInvariant hs h)
    have hforget : Turn s a₁ { a₁ with builder := { a₁.builder with newSites := #[] } } :=
      .take a₁.queue #[] a₁.arrivals a₁.stats (fun _ hx => absurd hx (Array.not_mem_empty _))
        fun _ hx => hx
    refine .modify_bind (.single hforget) (.seq (.forM_any fun x hx a₂ h₂ => .get_bind ?_)
      fun _ a₂ _ => .get_bind (.pure trivial))
    obtain ⟨g, hb⟩ := hunderway.confined
    obtain ⟨g₂, hb₂⟩ := (h₂.turnInvariant hs (hforget.turnInvariant hs hunderway)).confined
    have hsite := hb.loggedSites (Array.mem_toList_iff.1 hx)
    exact lookForEach_turns hs ((h₂.extends hs).pag.site hsite) fun o ho => hb₂.pag.shown ho

theorem round_turns : TrySpec (Turns s) (round s scale) a fun _ _ => True := by
  have hcount : Turn s a _ := .stats a { a.stats with iterations := a.stats.iterations + 1 }
  unfold round
  refine .modify_bind (.single hcount) ?_
  refine .seq (.modifyGet (.single .seed) trivial) fun seeded a₁ h₁ => ?_
  refine .seq (propagate_turns s.fuel) fun _ a₂ h₂ => .get_bind ?_
  have hunderway := h₂.turnInvariant hs (h₁.turnInvariant hs (hcount.turnInvariant hs h))
  split
  · exact .seq (resolveCalls_turns hs hunderway) fun _ _ _ => .pure trivial
  · have hdrop : Turn s a₂ (dropCalls a₂) :=
      .take a₂.queue #[] #[] a₂.stats (fun _ hx => absurd hx (Array.not_mem_empty _)) fun _ hx =>
        absurd hx (Array.not_mem_empty _)
    exact .modify_bind (.single hdrop) (.pure trivial)

theorem rounds_turns (n : Nat) : TrySpec (Turns s) (rounds s scale n) a fun _ _ => True := by
  induction n generalizing a with
  | zero => exact .throw
  | succ n ih =>
    refine .seq (round_turns hs h) fun more a₁ h₁ => ?_
    split
    · exact ih (h₁.turnInvariant hs h)
    · exact .pure trivial

end Underway

theorem enterEntries_turns : TrySpec (Turns s) (enterEntries s) a fun _ _ => True :=
  .get_bind (.forM_any fun _ hf _ h₁ =>
    .discard (Turn.trySpec (.enter ((h₁.extends hs).entries ▸ hf))))

theorem solve_turns (h : TurnInvariant s.program a) :
    TrySpec (Turns s) (solve s scale) a fun _ _ => True := by
  rw [solve_eq]
  refine .seq (enterEntries_turns hs) fun _ a₁ h₁ => ?_
  refine .seq (rounds_turns hs (h₁.turnInvariant hs h) s.fuel) fun _ a₂ _ => ?_
  exact .modify (.single (.stats a₂ _)) trivial

end Runs

theorem Reachable.turns (h : Reachable s a) (hturns : Turns s a a') : Reachable s a' := by
  induction hturns with
  | refl => exact h
  | tail _ hturn ih => exact ih.turn hturn

/-- However a run ends, another one may be started. -/
theorem Reachable.solve (hs : s.IsStandard) (h : Reachable s a) (scale : Scale) :
    Reachable s ((solve s scale).run.run a).2 := by
  have hsolve : TrySpec (Turns s) (Analysis.solve s scale) a fun _ _ => True :=
    solve_turns hs (h.turnInvariant hs)
  exact h.turns hsolve.1

/-! ## Looking twice -/

theorem TurnInvariant.idempotentAt (hs : s.IsStandard) (h : TurnInvariant s.program a)
    (hsite : site ∈ a.pag.sitesOf n) (hobj : a.pag.isObject obj = true) :
    IdempotentAt (processSite s n site obj) a fun _ _ => True := by
  obtain ⟨g, hb⟩ := h.confined
  refine processSite_idempotentAt hs (fun x hx => ?_) (hb.hasObject hobj) fun m o ho => ?_
  · exact hb.hasContext_of_isOwner (hb.pag.waits hsite) hx
  · exact hb.hasObject (hb.pag.shown ho)

/-- In whatever state an analysis is between two calls that are looked at: if looking at a call for
an object succeeds, then doing so again succeeds and changes nothing. -/
theorem processSite_idempotent (hs : s.IsStandard) (h : Reachable s a)
    (hsite : site ∈ a.pag.sitesOf n) (hobj : a.pag.isObject obj = true)
    (hrun : (processSite s n site obj).run.run a = (.ok (), a')) :
    (processSite s n site obj).run.run a' = (.ok (), a') := by
  obtain ⟨-, -, hagain⟩ := (h.turnInvariant hs).idempotentAt hs hsite hobj hrun
  exact hagain a' (refl_of Builder.GrowsIdly a'.builder)

namespace Sample

open Builder.Sample (setting)

/-- `callInto` when the function object 2 has reached `g`, the node 3. The call of `g`, which is the
statement 2, has not been looked at. -/
def met : Analysis :=
  visit callInto (seed (entered callInto).2).2 3

/-- The call is looked at for the function object. -/
def look : TryAnalysis Unit :=
  processSite (setting callInto) 3 ⟨2, .receiver⟩ 2

theorem reachable_met : Reachable (setting callInto) met := by
  have hstart : Reachable (setting callInto) _ := .start .direct [main] default
  have hentered := hstart.turns (enterEntries_turns (s := setting callInto) rfl).1
  exact (hentered.turn .seed).turn (.visit 3)

end Sample

open Sample Builder.Sample

/-- The first time the callee is laid out, and the call is counted. -/
theorem processSite_idempotent_met : ∃ a', look.run.run met = (.ok (), a') ∧
    met.builder.built = [(0, 0)] ∧ a'.builder.built = [(1, 1), (0, 0)] ∧
    met.stats.dynCallsResolved = 0 ∧ a'.stats.dynCallsResolved = 1 ∧
    look.run.run a' = (.ok (), a') := by
  obtain ⟨hok, hsite, hobj, hbefore, hafter, hnone, hone⟩ : (look.run.run met).1 = .ok () ∧
      ⟨2, .receiver⟩ ∈ met.pag.sitesOf 3 ∧ met.pag.isObject 2 = true ∧
      met.builder.built = [(0, 0)] ∧ (look.run.run met).2.builder.built = [(1, 1), (0, 0)] ∧
      met.stats.dynCallsResolved = 0 ∧ (look.run.run met).2.stats.dynCallsResolved = 1 := by
    decide +kernel
  generalize hrun : look.run.run met = r at hok hafter hone
  obtain ⟨result, a'⟩ := r
  cases hok
  exact ⟨a', rfl, hbefore, hafter, hnone, hone,
    processSite_idempotent (s := setting callInto) rfl reachable_met hsite hobj hrun⟩

end Analysis

end PointsTo
