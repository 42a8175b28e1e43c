import PointsTo.Proofs.Analysis.Copies
import PointsTo.Proofs.Analysis.Emptying

/-!
# What nodes show

A node shows the objects that were propagated at it, and those only. A node with fresh facts is in
the queue. Both hold when a round has brought in the new edges, and a turn of the loop keeps them:
the node that is looked at has left the queue, and whatever its visit brings to it, in a circle, is
settled with the rest (`propagateStep_loopInvariant`). So when the loop is through there is nothing
fresh anywhere, and what nodes show is all that is known (`exposed_is_all`).

Facts and queue are touched by nothing else, so this holds in every state that a user can start a
round from, also after one that has failed.
-/

namespace PointsTo.Analysis

variable {p : Program} {s : Setting} {scale : Scale} {a a' : Analysis} {n o : NodeId}

/-- Every node shows what was propagated at it, and nothing else. -/
def ShowsPropagated (a : Analysis) : Prop :=
  ∀ n o, o ∈ a.pag.ptsOf n ↔ o ∈ a.facts.propagatedOf n

/-- What holds whenever the loop looks at its queue. -/
structure LoopInvariant (p : Program) (a : Analysis) : Prop extends Stable p a where
  queued : a.Queued
  shown : a.ShowsPropagated

/-- What nodes show is all that is known of them. -/
structure ShowsKnown (a : Analysis) : Prop where
  fresh : ∀ n, a.facts.hasFresh n = false
  shown : ∀ n o, o ∈ a.pag.ptsOf n ↔ o ∈ a.facts.all n

/-! ## Nothing but the loop -/

/-- The analysis stays as it has to be, and its facts and its queue stay as they are. -/
def KeepsFactsAndQueue (p : Program) (a a' : Analysis) : Prop :=
  a.LoopInvariant p → a'.LoopInvariant p ∧ a'.facts = a.facts ∧ a'.queue = a.queue

instance (p : Program) : IsPreorder Analysis (KeepsFactsAndQueue p) where
  refl _ h := ⟨h, rfl, rfl⟩
  trans a₁ a₂ a₃ h h' ha := by
    obtain ⟨ha₂, hfacts₂, hqueue₂⟩ := h ha
    obtain ⟨ha₃, hfacts₃, hqueue₃⟩ := h' ha₂
    exact ⟨ha₃, hfacts₃.trans hfacts₂, hqueue₃.trans hqueue₂⟩

/-- Where facts, queue and what is shown stay, stability is all there is to see to. -/
theorem LoopInvariant.of_keepsFactsAndQueue (h : a.LoopInvariant p) (stable : a'.Stable p)
    (facts : a'.facts = a.facts)
    (queue : a'.queue = a.queue) (pts : ∀ n o, o ∈ a'.pag.ptsOf n ↔ o ∈ a.pag.ptsOf n) :
    a'.LoopInvariant p ∧ a'.facts = a.facts ∧ a'.queue = a.queue := by
  refine ⟨⟨stable, fun n o ho => ?_, fun n o => ?_⟩, facts, queue⟩
  · rw [queue]
    exact h.queued n o (facts ▸ ho)
  · rw [pts n o, facts]
    exact h.shown n o

theorem lifts_keepsFactsAndQueue : Lifts (Builder.StaysStable p) (KeepsFactsAndQueue p) where
  builder := by
    intro a b h ha
    obtain ⟨-, hpag, hpts⟩ := h ⟨ha.grounded.sound, ha.canonical.builder⟩
    exact ha.of_keepsFactsAndQueue (lifts_keepsStable.builder h ha.toStable) rfl rfl fun n o =>
      ⟨hpts, hpag.pts⟩
  count a ha := ha.of_keepsFactsAndQueue (lifts_keepsStable.count a ha.toStable) rfl rfl
    fun _ _ => .rfl
  arrivals a ha := ha.of_keepsFactsAndQueue (lifts_keepsStable.arrivals a ha.toStable) rfl rfl
    fun _ _ => .rfl

theorem resolveCalls_keepsFactsAndQueue (hs : s.IsStandard) :
    GuaranteesOn .all (KeepsFactsAndQueue s.program) (resolveCalls s) :=
  resolveCalls_lifted lifts_keepsFactsAndQueue (Builder.lookGuarantees_staysStable hs)

theorem enterEntries_keepsFactsAndQueue (hs : s.IsStandard) :
    GuaranteesOn .all (KeepsFactsAndQueue s.program) (enterEntries s) :=
  .bind .get fun _ => .forM fun _ _ =>
    .discard (lifts_keepsFactsAndQueue.build (Builder.enterEntry_staysStable hs))

theorem lookOrDrop_keepsFactsAndQueue (hs : s.IsStandard) {seeded : Bool} :
    GuaranteesOn .all (KeepsFactsAndQueue s.program) (lookOrDrop s scale seeded) := by
  refine .bind .get fun a => ?_
  split
  · exact .bind (resolveCalls_keepsFactsAndQueue hs) fun _ => .pure
  · refine .bind (.modify fun a ha => ?_) fun _ => .pure
    exact ha.of_keepsFactsAndQueue ha.toStable.dropCalls rfl rfl fun _ _ => .rfl

theorem LoopInvariant.setStats (h : a.LoopInvariant p) (stats : Stats) :
    LoopInvariant p { a with stats } :=
  (h.of_keepsFactsAndQueue (h.toStable.setStats stats) rfl rfl fun _ _ => .rfl).1

theorem LoopInvariant.setEntries (h : a.LoopInvariant p) (entries : List MethodSig) :
    LoopInvariant p (a.setEntries p entries).2 :=
  (h.of_keepsFactsAndQueue (h.toStable.setEntries entries) rfl rfl fun _ _ => .rfl).1

theorem loopInvariant_ofGraph {g : CallGraph} (hg : g.Consistent p) (c : Config) :
    LoopInvariant p (ofGraph g c) where
  toStable := stable_ofGraph hg c
  queued n o ho := by simp [ofGraph] at ho
  shown n o := by simp [ofGraph, Builder.ofGraph, pag, Pag.ptsOf, Pag.node?]

/-! ## The loop -/

/-- Facts that are brought in are fresh, and their nodes are queued. -/
theorem LoopInvariant.seed (h : a.LoopInvariant p) : LoopInvariant p (seed a).2 := by
  have hs : Seeded p a.takeEdges (Analysis.seed a).2 := (seed_seeded h.grounded).1
  refine ⟨h.toStable.seed, fun n o ho => ?_, fun n o => ?_⟩
  · rcases hs.queued ho with ho | hn
    · exact hs.queue (h.queued n o ho)
    · exact hn
  · have hpag : (Analysis.seed a).2.pag = a.pag := hs.pag
    rw [hpag, hs.propagated]
    exact h.shown n o

/-- Settling shows what it propagates. -/
theorem ShowsPropagated.settle (h : a.ShowsPropagated) (hn : n < a.pag.nodes.size) :
    (a.settle n).ShowsPropagated := by
  intro m o
  rw [pag_settle, Pag.mem_ptsOf_addPts, facts_settle, DiffStore.mem_propagatedOf_flush, h m o]
  constructor
  · rintro (ho | ⟨rfl, -, ho⟩)
    · exact Or.inl ho
    · exact Or.inr ⟨rfl, ho⟩
  · rintro (ho | ⟨rfl, ho⟩)
    · exact Or.inl ho
    · exact Or.inr ⟨rfl, hn, ho⟩

/-- While a node is visited nothing is propagated, and nothing more is shown. -/
theorem Visited.showsPropagated (h : Visited n a a') (ha : a.ShowsPropagated) :
    a'.ShowsPropagated := by
  intro m o
  rw [h.propagated, ← ha m o]
  exact ⟨h.pts, h.pag.pts⟩

theorem ShowsPropagated.visit (h : a.ShowsPropagated) (ha : a.Grounded p)
    (hn : n < a.pag.nodes.size) : (visit p a n).ShowsPropagated := by
  have hv := (preVisit_visitSteps (n := n) ha).visited
  rw [visit_eq]
  exact (hv.showsPropagated h).settle (hv.pag.lt hn)

/-- A turn of the loop cannot fail. The node that is looked at is not in the queue, but nothing
stays fresh at it, whatever it gets meanwhile. -/
theorem propagateStep_loopInvariant (h : a.LoopInvariant p) : ∃ more a',
    (propagateStep p).run.run a = (.ok more, a') ∧ a'.LoopInvariant p := by
  have hends : TryTerminates (fun _ => False) AnyChange (propagateStep p) a fun _ a' =>
    a'.LoopInvariant p := by
    unfold propagateStep
    refine .get_bind ?_
    split
    · exact .pure h
    · rename_i n rest hqueue
      have h₁ : Stable p { a with queue := rest } := h.toStable.setQueue rest
      -- Other nodes with fresh facts are still in the queue.
      have hothers : ∀ m o, o ∈ a.facts.freshOf m → m ≠ n → m ∈ rest := by
        intro m o ho hne
        have hm := h.queued m o ho
        rw [hqueue] at hm
        exact (List.mem_cons.1 hm).resolve_left hne
      refine .modify_bind trivial (.get_bind ?_)
      dsimp only
      split
      · rename_i hfresh
        have hsome := h₁.grounded.node?_isSome h₁.canonical hfresh
        refine .get_bind ?_
        split
        · rename_i hnone
          rw [← Option.not_isSome, hsome] at hnone
          cases hnone
        · obtain ⟨x, hx⟩ := Option.isSome_iff_exists.1 hsome
          have hshows : ShowsPropagated { a with queue := rest } := h.shown
          refine .modify_bind trivial (.pure ⟨h₁.visit n, queued_visit h₁.grounded hothers, ?_⟩)
          exact hshows.visit h₁.grounded (Pag.node?_lt hx)
      · rename_i hidle
        refine .pure ⟨h₁, fun m o ho => ?_, h.shown⟩
        by_cases hm : m = n
        · subst hm
          exact absurd ho (DiffStore.not_mem_freshOf_of_hasFresh (by simpa using hidle))
        · exact hothers m o ho hm
  cases hx : ((propagateStep p).run.run a).1 with
  | ok more => exact ⟨more, _, Prod.ext hx rfl, hends.trySpec.2 more hx⟩
  | error e =>
    rcases hends.1.fails hx with rfl | hf
    · exact absurd hx hends.2
    · exact absurd hf id

/-- The loop comes from the one state to the other, each of them at the start of a turn. -/
def Iterates (p : Program) : Analysis → Analysis → Prop :=
  Relation.ReflTransGen fun a a' => (propagateStep p).run.run a = (.ok true, a')

theorem LoopInvariant.iterates (h : a.LoopInvariant p) (hi : Iterates p a a') :
    a'.LoopInvariant p := by
  induction hi with
  | refl => exact h
  | tail _ hstep ih =>
    obtain ⟨more, a₂, hrun, h₂⟩ := propagateStep_loopInvariant ih
    rw [hstep] at hrun
    cases hrun
    exact h₂

/-- The analysis stays as it has to be. -/
def KeepsLoopInvariant (p : Program) (a a' : Analysis) : Prop :=
  a.LoopInvariant p → a'.LoopInvariant p

instance (p : Program) : IsPreorder Analysis (KeepsLoopInvariant p) where
  refl _ := id
  trans _ _ _ h h' ha := h' (h ha)

/-- However the loop ends: it may only run out of turns, between two of them. -/
theorem propagate_loopInvariant (fuel : Nat) :
    GuaranteesOn .all (KeepsLoopInvariant p) (propagate p fuel) := by
  induction fuel with
  | zero =>
    refine .bind .get fun a => ?_
    split
    · exact .throw
    · exact .pure
  | succ fuel ih =>
    rw [propagate_succ]
    refine .bind (fun a _ ha => ?_) fun more => ?_
    · obtain ⟨more, a', hrun, ha'⟩ := propagateStep_loopInvariant ha
      rw [hrun]
      exact ha'
    · split
      · exact ih
      · exact .pure

/-! ## Rounds -/

theorem spread_loopInvariant : GuaranteesOn .all (KeepsLoopInvariant s.program) (spread s) := by
  refine .bind (.modify fun a ha => ha.setStats _) fun _ => ?_
  refine .bind (fun a _ ha => ha.seed) fun seeded => ?_
  exact .bind (propagate_loopInvariant s.fuel) fun _ => .pure

theorem round_loopInvariant (hs : s.IsStandard) :
    GuaranteesOn .all (KeepsLoopInvariant s.program) (round s scale) := by
  rw [round_eq]
  exact .bind spread_loopInvariant fun _ => (lookOrDrop_keepsFactsAndQueue hs).weaken fun h ha =>
    (h ha).1

theorem Resting.loopInvariant (h : Resting p a) : a.LoopInvariant p := by
  induction h with
  | start consistent c => exact loopInvariant_ofGraph consistent c
  | setEntries entries _ ih => exact ih.setEntries entries
  | enter fuel _ ih =>
    let s : Setting := { program := p, models := LibraryModel.standard, fuel }
    exact (enterEntries_keepsFactsAndQueue (s := s) rfl _ trivial ih).1
  | round fuel scale _ ih =>
    let s : Setting := { program := p, models := LibraryModel.standard, fuel }
    exact round_loopInvariant (s := s) rfl _ trivial ih
  | report _ ih => exact ih.setStats _

/-! ## At the end -/

/-- Nothing is queued, so nothing is fresh. -/
theorem LoopInvariant.showsKnown (h : a.LoopInvariant p) (hqueue : a.queue = []) :
    a.ShowsKnown := by
  have hfresh : ∀ n o, o ∉ a.facts.freshOf n := by
    intro n o ho
    have hn := h.queued n o ho
    rw [hqueue] at hn
    cases hn
  refine ⟨fun n => ?_, fun n o => ?_⟩
  · cases hx : a.facts.hasFresh n with
    | false => rfl
    | true =>
      obtain ⟨o, ho⟩ := h.canonical.exists_fresh hx
      exact absurd ho (hfresh n o)
  · rw [h.shown n o, DiffStore.mem_all]
    exact ⟨Or.inl, fun ho => ho.resolve_right (hfresh n o)⟩

theorem ShowsKnown.mem_pointsTo (h : a.ShowsKnown) {v : ValueId} :
    o ∈ a.pointsTo v ↔ ∃ n ∈ a.pag.nodesOf v, o ∈ a.facts.all n := by
  rw [Analysis.mem_pointsTo]
  refine exists_congr fun n => ?_
  rw [Pag.mem_nodesOf, h.shown]

/-- Calls are looked at, or dropped, after facts were passed on, and bring no facts. -/
theorem round_showsKnown (hs : s.IsStandard) (h : a.LoopInvariant s.program) {more : Bool}
    (hrun : (round s scale).run.run a = (.ok more, a')) :
    a'.LoopInvariant s.program ∧ a'.queue = [] := by
  rw [round_eq] at hrun
  obtain ⟨seeded, a₁, hspread, hlook⟩ := TryGuarantees.of_bind hrun
  have h₁ : a₁.LoopInvariant s.program := by
    have hled := spread_loopInvariant (s := s) a trivial h
    rw [hspread] at hled
    exact hled
  have hqueue : a₁.queue = [] := by
    rw [run_spread] at hspread
    obtain ⟨_, a₂, hloop, hend⟩ := TryGuarantees.of_bind hspread
    cases hend
    exact ((propagate_queue s.fuel).of_run hloop).2
  have hkeeps : GuaranteesOn .all (KeepsFactsAndQueue s.program) (lookOrDrop s scale seeded) :=
    lookOrDrop_keepsFactsAndQueue hs
  have hled := hkeeps a₁ trivial h₁
  rw [hlook] at hled
  exact ⟨hled.1, hled.2.2.trans hqueue⟩

theorem rounds_showsKnown (hs : s.IsStandard) {n : Nat} (h : a.LoopInvariant s.program)
    (hrun : (rounds s scale n).run.run a = (.ok (), a')) :
    a'.LoopInvariant s.program ∧ a'.queue = [] := by
  induction n generalizing a with
  | zero => cases hrun
  | succ n ih =>
    unfold rounds at hrun
    obtain ⟨more, b, hround, hrest⟩ := TryGuarantees.of_bind hrun
    have hb := round_showsKnown hs h hround
    cases more with
    | false =>
      cases hrest
      exact hb
    | true => exact ih hb.1 hrest

theorem solve_showsKnown (hs : s.IsStandard) (h : a.LoopInvariant s.program)
    (hrun : (solve s scale).run.run a = (.ok (), a')) : a'.ShowsKnown := by
  obtain ⟨a₁, a₂, henter, hrounds, rfl⟩ := solve_eq_ok hrun
  have h₁ := enterEntries_keepsFactsAndQueue hs a trivial h
  rw [henter] at h₁
  obtain ⟨h₂, hqueue⟩ := rounds_showsKnown hs h₁.1 hrounds
  exact (h₂.setStats _).showsKnown hqueue

/-- Where the loop comes, it goes on as if it had begun there. -/
theorem Iterates.run_propagate (hi : Iterates p a a') :
    ∃ n, ∀ fuel, (propagate p (n + fuel)).run.run a = (propagate p fuel).run.run a' := by
  induction hi using Relation.ReflTransGen.head_induction_on with
  | refl => exact ⟨0, fun fuel => by rw [Nat.zero_add]⟩
  | head hstep _ ih =>
    obtain ⟨n, hn⟩ := ih
    refine ⟨n + 1, fun fuel => ?_⟩
    rw [Nat.succ_add, propagate_succ, run_bind_ok (congrArg Prod.fst hstep), hstep]
    exact hn fuel

/-- **What is shown is what was propagated, and at the end everything.** Wherever a round begins,
when it has brought in the new edges and at the start of each turn of its loop, every node with
fresh facts is in the queue, and every node shows exactly what was propagated at it. When the loop
ends, nothing is fresh at any node, so what nodes show is all that is known of them, and that is
what the calls that wait are looked at for. The same holds when a run is complete, so a value is
said to point to all that is known at its nodes. -/
theorem exposed_is_all (h : Resting p a) :
    (∀ a', Iterates p a.seeded a' → a'.Queued ∧ a'.ShowsPropagated ∧
      ∃ n, ∀ fuel, (propagate p (n + fuel)).run.run a.seeded = (propagate p fuel).run.run a') ∧
    (∀ fuel a', (propagate p fuel).run.run a.seeded = (.ok (), a') → a'.ShowsKnown) ∧
    ∀ fuel scale a',
      (solve { program := p, models := LibraryModel.standard, fuel } scale).run.run a =
      (.ok (), a') → a'.ShowsKnown ∧
        ∀ v o, o ∈ a'.pointsTo v ↔ ∃ n ∈ a'.pag.nodesOf v, o ∈ a'.facts.all n := by
  have hseeded : a.seeded.LoopInvariant p := (h.loopInvariant.setStats _).seed
  refine ⟨fun a' hi => ?_, fun fuel a' hrun => ?_, fun fuel scale a' hrun => ?_⟩
  · have h' := hseeded.iterates hi
    exact ⟨h'.queued, h'.shown, hi.run_propagate⟩
  · have hled := propagate_loopInvariant fuel a.seeded trivial hseeded
    rw [hrun] at hled
    exact hled.showsKnown ((propagate_queue fuel).of_run hrun).2
  · let s : Setting := { program := p, models := LibraryModel.standard, fuel }
    have hall : a'.ShowsKnown := solve_showsKnown (s := s) rfl h.loopInvariant hrun
    exact ⟨hall, fun v o => hall.mem_pointsTo⟩

open Sample

/-- In `chain`, a value is read through itself, so its node gets facts while it is visited. -/
theorem exposed_is_all_chain :
    let a :=
      ((enterEntries { program := chain, models := LibraryModel.standard, fuel := 20 }).run.run
        (ofGraph (Seed.direct.graph chain [main]) default)).2
    let r := (propagate chain 20).run.run a.seeded
    Resting chain a ∧ a.seeded.queue ≠ [] ∧ r.1.isOk = true ∧ a.seeded.Queued ∧
    a.seeded.ShowsPropagated ∧
      r.2.ShowsKnown := by
  intro a r
  have hresting : Resting chain a :=
    .enter 20 (.start (Seed.direct.graph_consistent chain [main]) default)
  obtain ⟨hturns, hend, -⟩ := exposed_is_all hresting
  have hok : r.1.isOk = true := by decide +kernel
  obtain ⟨hqueued, hshows, -⟩ := hturns a.seeded .refl
  refine ⟨hresting, by decide +kernel, hok, hqueued, hshows, hend 20 r.2 ?_⟩
  show r = (.ok (), r.2)
  cases hr : r.1 with
  | ok x => exact Prod.ext hr rfl
  | error e =>
    rw [hr] at hok
    cases hok

end PointsTo.Analysis
