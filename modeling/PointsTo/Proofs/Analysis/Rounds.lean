import PointsTo.Analysis.Report
import PointsTo.Proofs.Analysis.Waiting

/-!
# Rounds

Between the parts of a round an invariant holds (`RunInvariant`): edges are applied or logged, nodes
with fresh facts are queued, methods are laid out, and every call that waits has been looked at for
every object at its node or is noted for it. Objects are noted as they arrive at a node, calls as
they are registered, so it does not matter which of the two is there first.

Every part of a round keeps this, and in the end nothing is left in the queue or the logs
(`solve_spec`). So whenever an analysis completes, all its facts are shown, and all its edges are
applied to all of them (`Finished.edgeApplied`).
-/

namespace PointsTo.Analysis

open Builder (AllCallsWait)

variable {s : Setting} {p : Program} {scale : Scale} {a a' : Analysis} {n o : NodeId}

/-- Every waiting call was looked at for every object at its node, or is noted for it. -/
def Covered (p : Program) (a : Analysis) : Prop :=
  ∀ n site o, site ∈ a.pag.sitesOf n → o ∈ a.pag.ptsOf n →
    Looked p a.builder n site o ∨ (∃ objs, (n, objs) ∈ a.arrivals ∧ o ∈ objs) ∨
      (n, site) ∈ a.builder.newSites

/-- Nothing got lost but, maybe, calls to look at. -/
structure RoundInvariant (p : Program) (a : Analysis) : Prop where
  valid : a.Valid p
  queued : a.Queued
  callsWait : a.builder.AllCallsWait p
  /-- What arrives at a node is an object. -/
  arrived : ∀ {n objs o}, (n, objs) ∈ a.arrivals → o ∈ objs → a.pag.isObject o = true

/-- What holds between the parts of a round. -/
structure RunInvariant (p : Program) (scale : Scale) (a : Analysis) : Prop extends
    RoundInvariant p a where
  /-- At the method level, calls are forgotten after the first round. -/
  covered : scale = .wholeProgram → a.Covered p

/-- Nothing is left to do. -/
structure Finished (p : Program) (scale : Scale) (a : Analysis) : Prop extends
    RunInvariant p scale a where
  queue : a.queue = []
  newEdges : a.builder.newEdges = #[]
  calls : scale = .wholeProgram → a.arrivals = #[] ∧ a.builder.newSites = #[]

theorem Finished.not_noted (h : Finished p .wholeProgram a) {site : SiteRef} :
    ¬a.Noted n site o := by
  obtain ⟨harr, hnew⟩ := h.calls rfl
  simp [Noted, harr, hnew]

/-- Every call was looked at for every object that has reached it. -/
theorem Finished.looked (h : Finished p .wholeProgram a) {site : SiteRef}
    (hsite : site ∈ a.pag.sitesOf n) (ho : o ∈ a.pag.ptsOf n) : Looked p a.builder n site o :=
  (h.covered rfl n site o hsite ho).resolve_right h.not_noted

/-! ## Builder -/

theorem Looked.build {site : SiteRef} (h : Looked p a.builder n site o)
    (hb : ChangesOnlyBuilder p a a') : Looked p a'.builder n site o :=
  h.mono hb.layoutSteps.grows.pag hb.layoutSteps.grows.graph hb.layoutSteps.built

theorem Covered.of_keepsNoted (h : a.Covered p) (hp : KeepsNoted a a')
    (hl : ∀ {n site o}, Looked p a.builder n site o → Looked p a'.builder n site o) :
    a'.Covered p := by
  intro n site o hsite ho
  rcases hp.waits ⟨hsite, ho⟩ with hw | hnoted
  · exact (h n site o hw.1 hw.2).imp hl hp.noted
  · exact Or.inr hnoted

theorem Covered.build (h : a.Covered p) (hb : ChangesOnlyBuilder p a a') : a'.Covered p :=
  h.of_keepsNoted hb.keepsNoted fun hl => hl.build hb

theorem RoundInvariant.build (h : RoundInvariant p a) (hb : ChangesOnlyBuilder p a a')
    (hlaid : a'.builder.AllCallsWait p) : RoundInvariant p a' where
  valid :=
    h.valid.grow (hb.layoutSteps.sound h.valid.grounded.sound)
      hb.layoutSteps.grows.pag hb.layoutSteps.grows.pts
    hb.layoutSteps.grows.edges hb.layoutSteps.grows.newEdges hb.facts
  queued n o ho := by
    rw [hb.queue]
    exact h.queued n o (hb.facts ▸ ho)
  callsWait := hlaid
  arrived harr ho := hb.layoutSteps.grows.pag.isObject (h.arrived (hb.arrivals ▸ harr) ho)

/-! ## New edges -/

/-- Edges were brought in between. -/
structure Seeded (p : Program) (a a' : Analysis) : Prop extends AddsFresh a a' where
  steps : Steps p a a'
  builder : a'.builder = a.builder

instance (p : Program) : IsPreorder Analysis (Seeded p) where
  refl a := ⟨.rfl, refl_of (Steps p) a, rfl⟩
  trans _ _ _ h h' := ⟨h.toAddsFresh.trans h'.toAddsFresh, trans_of (Steps p) h.steps h'.steps,
    h'.builder.trans h.builder⟩

namespace Seeded

theorem pag (h : Seeded p a a') : a'.pag = a.pag :=
  congrArg Builder.pag h.builder

theorem edgeApplied {e : FlowEdge} (h : Seeded p a a') (ha : a.Grounded p) (he : e ∈ a.pag.edges)
    (hs : a.EdgeApplied p e) : a'.EdgeApplied p e :=
  hs.mono ha (h.pag ▸ .rfl) h.all_kept h.settled he

end Seeded

theorem seedEdge_seeded {e : FlowEdge} (he : e ∈ a.pag.edges) : Seeded p a (a.seedEdge e) := by
  obtain ⟨m, P, h, -⟩ := a.seedEdge_receives e
  exact ⟨h.toAddsFresh, .of_step (.seed he), a.builder_seedEdge e⟩

/-- Nothing is settled at a node whose facts are offered once more. -/
theorem not_settled_reseed : ¬(a.reseed n).Settled n o := by
  have facts : (a.reseed n).facts = (a.facts.reseed n).2 := by
    unfold reseed
    dsimp only
    split <;> rfl
  rintro ⟨hp, hf⟩
  rw [(a.reseed_receives n).propagated] at hp
  rw [facts] at hf
  exact hf (DiffStore.mem_freshOf_reseed hp)

theorem refBase?_of_accesses {r : NodeId} {key : FieldKey} (h : a.pag.Accesses r n key) :
    a.refBase? r = some n := by
  obtain ⟨node, hn, -, hk⟩ := h
  simp [refBase?, hn, hk]

/-- An edge that is brought in is applied: what would have to take it is not settled any more. -/
theorem edgeApplied_seedEdge {e : FlowEdge} : (a.seedEdge e).EdgeApplied p e := by
  have hpag : (a.seedEdge e).pag = a.pag := congrArg Builder.pag (a.builder_seedEdge e)
  obtain ⟨kind, src, dst⟩ := e
  cases kind with
  | address => exact (receive_receives (a.facts.add_gains dst src)).known rfl
  | copy | interprocedural => exact fun o ho => absurd ho not_settled_reseed
  | this => exact fun o ho => absurd ho not_settled_reseed
  | load =>
    intro m key hm o ho
    rw [hpag] at hm
    have heq : a.seedEdge ⟨.load, src, dst⟩ = a.reseed m := by
      simp [seedEdge, refBase?_of_accesses hm]
    rw [heq] at ho
    exact absurd ho not_settled_reseed
  | write =>
    intro m key hm o ho
    rw [hpag] at hm
    have heq : a.seedEdge ⟨.write, src, dst⟩ = a.reseed m := by
      simp [seedEdge, refBase?_of_accesses hm]
    rw [heq] at ho
    exact absurd ho not_settled_reseed

/-- The analysis with its log of edges taken. -/
def takeEdges (a : Analysis) : Analysis :=
  { a with builder := { a.builder with newEdges := #[] } }

theorem takeEdges_steps (a : Analysis) : Steps p a a.takeEdges :=
  .of_step (.take #[] a.builder.newSites (by simp))

theorem seed_eq (a : Analysis) :
    (seed a).2 = a.builder.newEdges.toList.foldl seedEdge a.takeEdges := by
  simp [seed, takeEdges]

/-- The logged edges are brought in, and applied afterwards. -/
theorem seed_seeded (ha : a.Grounded p) : Seeded p a.takeEdges (seed a).2 ∧
    ∀ e ∈ a.builder.newEdges, (seed a).2.EdgeApplied p e := by
  have ha₀ : a.takeEdges.Grounded p := (takeEdges_steps a).grounded ha
  have hloop : Seeded p a.takeEdges (a.builder.newEdges.toList.foldl seedEdge a.takeEdges) ∧
      ∀ e ∈ a.builder.newEdges.toList, _ :=
    foldl_spec (P := fun e a' => a'.Grounded p ∧ e ∈ a'.pag.edges ∧ a'.EdgeApplied p e) ?_ ?_
  · rw [seed_eq]
    exact ⟨hloop.1, fun e he => (hloop.2 e (by simpa using he)).2.2⟩
  -- Edges that were brought in before stay applied, as nothing is settled meanwhile.
  · rintro e a₁ a₂ h ⟨ha₁, he, hs⟩
    exact ⟨h.steps.grounded ha₁, h.pag ▸ he, h.edgeApplied ha₁ he hs⟩
  · intro e he a₁ h
    have he₁ : e ∈ a₁.pag.edges := h.pag ▸ ha.sound.logged (by simpa using he)
    have hstep := seedEdge_seeded (p := p) he₁
    exact ⟨hstep, hstep.steps.grounded (h.steps.grounded ha₀),
      hstep.pag ▸ he₁, edgeApplied_seedEdge⟩

theorem seed_spec (h : RunInvariant p scale a) :
    TrySpec (Steps p) (modifyGet seed : TryAnalysis Bool) a fun _ a' =>
      RunInvariant p scale a' ∧ a'.builder.newEdges = #[] ∧ KeepsNoted a a' := by
  obtain ⟨hs, happlied⟩ := seed_seeded h.valid.grounded
  have ha₀ : a.takeEdges.Grounded p := (takeEdges_steps a).grounded h.valid.grounded
  have hpag : (seed a).2.pag = a.pag := hs.pag
  refine .modifyGet (trans_of (Steps p) (takeEdges_steps a) hs.steps) ⟨?_, ?_, ?_⟩
  · exact {
      valid := {
        grounded := hs.steps.grounded ha₀
        shown := fun ho => hpag ▸ h.valid.shown (hs.propagated _ ▸ ho)
        edgeApplied := fun {e} he => by
          rw [hpag] at he
          rcases h.valid.edgeApplied he with hnew | hold
          · exact Or.inr (happlied e hnew)
          · refine Or.inr (hold.mono h.valid.grounded ?_ hs.all_kept hs.settled he)
            exact hpag ▸ .rfl }
      queued := fun n o ho => by
        rcases hs.queued ho with ho | hn
        · exact hs.queue (h.queued n o ho)
        · exact hn
      callsWait := hs.builder ▸ h.callsWait
      arrived := fun harr ho => hpag ▸ h.arrived (hs.arrivals ▸ harr) ho
      covered := fun hscale n site o hsite ho => by
        rw [hpag] at hsite ho
        have hcovered := h.covered hscale n site o hsite ho
        rw [hs.builder, hs.arrivals]
        exact hcovered.imp_left fun hl => hl.mono .rfl .rfl (List.Subset.refl _) }
  · rw [hs.builder]
    rfl
  · exact .of_same hpag hs.arrivals (by rw [hs.builder]; rfl)

/-! ## Propagation -/

theorem visit_keepsNoted (ha : a.Grounded p) : KeepsNoted a (visit p a n) := by
  rw [visit_eq]
  exact (preVisit_visitSteps ha).visited.keepsNoted.trans (settle_keepsNoted _ n)

theorem extends_visit (ha : a.Grounded p) : a.pag.Extends (visit p a n).pag := by
  rw [visit_eq, pag_settle]
  exact (preVisit_visitSteps ha).visited.pag.trans (Pag.addPts_extends ..)

theorem builder_visit (ha : a.Grounded p) :
    (visit p a n).builder = { a.builder with pag := (visit p a n).pag } := by
  rw [visit_eq, pag_settle, builder_settle, (preVisit_visitSteps ha).visited.builder]

theorem Looked.of_extends {b : Builder} {pag : Pag} {site : SiteRef} (h : Looked p b n site o)
    (hpag : b.pag.Extends pag) : Looked p { b with pag } n site o :=
  h.mono hpag .rfl (List.Subset.refl _)

theorem Covered.visit (h : a.Covered p) (ha : a.Grounded p) : (visit p a n).Covered p := by
  refine h.of_keepsNoted (visit_keepsNoted ha) fun hl => ?_
  rw [builder_visit ha]
  exact hl.of_extends (extends_visit ha)

/-- What arrives is an object. -/
theorem mem_arrivals_visit (ha : a.Grounded p) {m : NodeId} {objs : List NodeId}
    (harr : (m, objs) ∈ (visit p a n).arrivals) (ho : o ∈ objs) :
    (m, objs) ∈ a.arrivals ∨ (visit p a n).pag.isObject o = true := by
  have hsteps := preVisit_visitSteps (n := n) ha
  rw [visit_eq] at harr ⊢
  rcases mem_arrivals_settle harr with harr | heq
  · rw [hsteps.visited.arrivals] at harr
    exact Or.inl harr
  · cases heq
    have ha' := hsteps.steps.grounded ha
    have hobj := ha'.object (DiffStore.mem_all.2 (Or.inr (ObjSet.mem_def.2 ho)))
    rw [pag_settle]
    exact Or.inr ((Pag.addPts_extends ..).isObject hobj)

/-- Visiting the node at the head of the queue. -/
theorem RunInvariant.visit {rest : List NodeId} (h : RunInvariant p scale a)
    (hqueue : a.queue = n :: rest)
    (hn : n < a.pag.nodes.size) : RunInvariant p scale (visit p { a with queue := rest } n) := by
  have hvalid : ({ a with queue := rest } : Analysis).Valid p :=
    h.valid.grow h.valid.grounded.sound .rfl (fun ho => ho) Or.inl (fun he => he) rfl
  have ha := hvalid.grounded
  refine ⟨⟨hvalid.visit hn, queued_visit ha fun m o ho hm => ?_, ?_, fun {m objs o} harr ho => ?_⟩,
    fun hscale => ?_⟩
  -- Apart from the node itself, what has fresh facts is still in the queue.
  · have hmem := h.queued m o ho
    rw [hqueue] at hmem
    exact (List.mem_cons.1 hmem).resolve_left hm
  · have hlaid : ({ a with queue := rest } : Analysis).builder.AllCallsWait p := h.callsWait
    rw [builder_visit ha]
    exact hlaid.of_extends (extends_visit ha)
  · rcases mem_arrivals_visit ha harr ho with harr | ho
    · exact (extends_visit ha).isObject (h.arrived harr ho)
    · exact ho
  · have hcovered : ({ a with queue := rest } : Analysis).Covered p := h.covered hscale
    exact hcovered.visit ha

theorem newEdges_visit (ha : a.Grounded p) :
    (visit p a n).builder.newEdges = a.builder.newEdges := by
  rw [builder_visit ha]

/-- All facts are passed on. -/
theorem propagate_spec (fuel : Nat) (h : RunInvariant p scale a) :
    TrySpec (Steps p) (propagate p fuel) a fun _ a' => RunInvariant p scale a' ∧ a'.queue = [] ∧
      a'.builder.newEdges = a.builder.newEdges ∧ KeepsNoted a a' := by
  induction fuel generalizing a with
  | zero =>
    unfold propagate
    refine .get_bind ?_
    split
    · exact .throw
    · rename_i hempty
      exact .pure ⟨h, by simpa using hempty, rfl, .rfl⟩
  | succ fuel ih =>
    unfold propagate
    refine .get_bind ?_
    split
    · rename_i hempty
      exact .pure ⟨h, hempty, rfl, .rfl⟩
    · rename_i n rest hqueue
      refine .modify_bind (.of_step (.schedule rest a.arrivals a.stats)) (.get_bind ?_)
      have ha : ({ a with queue := rest } : Analysis).Grounded p :=
        (Step.schedule rest a.arrivals a.stats).grounded h.valid.grounded
      have hpop : KeepsNoted a { a with queue := rest } := .of_same rfl rfl rfl
      split
      · refine .get_bind ?_
        split
        · exact .throw
        · rename_i hnode
          have hne : a.pag.node? n ≠ none := fun h => hnode (Option.isNone_iff_eq_none.2 h)
          obtain ⟨node, hnode⟩ := Option.ne_none_iff_exists'.1 hne
          have hn : n < a.pag.nodes.size := Pag.node?_lt hnode
          refine .modify_bind (visit_steps ha) ((ih (h.visit hqueue hn)).mono ?_)
          rintro - a' - ⟨h', hempty, hnew, hpasses⟩
          refine ⟨h', hempty, hnew.trans (newEdges_visit ha), hpop.trans ?_⟩
          exact (visit_keepsNoted ha).trans hpasses
      -- A node without fresh facts can leave the queue unvisited.
      · rename_i hfresh
        have h' : RunInvariant p scale { a with queue := rest } := by
          refine ⟨⟨?_, fun m o ho => ?_, h.callsWait, h.arrived⟩, h.covered⟩
          · exact h.valid.grow h.valid.grounded.sound .rfl (fun ho => ho) Or.inl (fun he => he) rfl
          · have hmem := h.queued m o ho
            rw [hqueue] at hmem
            refine (List.mem_cons.1 hmem).resolve_left ?_
            rintro rfl
            exact DiffStore.not_mem_freshOf_of_hasFresh (by simpa using hfresh) ho
        refine (ih h').mono ?_
        rintro - a' - ⟨h', hempty, hnew, hpasses⟩
        exact ⟨h', hempty, hnew, hpop.trans hpasses⟩

/-! ## Calls -/

theorem RoundInvariant.forget (h : RoundInvariant p a) (newSites : Array (NodeId × SiteRef))
    {arrivals : Array (NodeId × List NodeId)} (stats : Stats)
    (harr : ∀ x ∈ arrivals, x ∈ a.arrivals) :
    RoundInvariant p (a.forget newSites arrivals stats) where
  valid := h.valid.grow ((forget_steps a newSites arrivals stats).grounded h.valid.grounded).sound
    .rfl (fun ho => ho) Or.inl (fun he => he) rfl
  queued := h.queued
  callsWait := h.callsWait
  arrived hx ho := h.arrived (harr _ hx) ho

/-- Whatever was noted is looked at; if that leads to nothing new, nothing is left to look at. -/
theorem EstablishedByLooking.resolveCalls {I : Analysis → Prop} {R : Analysis → Analysis → Prop}
    [IsPreorder Analysis R] {D : Analysis → NodeId → SiteRef → NodeId → Prop}
    (hd : EstablishedByLooking s I R D) (h : RoundInvariant s.program a) (hi : I a) :
    TrySpec (Steps s.program) (resolveCalls s) a fun found a' =>
      RoundInvariant s.program a' ∧ NotedLookedAt D a a' ∧ a'.queue = a.queue ∧ a'.arrivals = #[] ∧
        (found = false → a'.builder.newEdges = #[] ∧ a'.builder.newSites = #[]) := by
  unfold Analysis.resolveCalls
  refine .get_bind (.modify_bind (forget_steps a a.builder.newSites #[] a.stats) ?_)
  have h₁ : RoundInvariant s.program (a.forget a.builder.newSites #[] a.stats) :=
    h.forget _ _ (by simp)
  refine .bind (hd.spec (hd.lookAtArrivals h₁.valid.grounded (hd.forget _ _ _ hi) ?_)) ?_
  · exact fun x hx o ho => lt_of_isObject (h.arrived (by simpa using hx) ho)
  rintro - a₂ - ⟨hr₂, hi₂, hd₂⟩
  have hb₂ := hd.changesOnlyBuilder hr₂
  have h₂ := h₁.build hb₂ (hd.callsWait hi₂)
  -- What is noted from now on is left for the next round.
  refine .get_bind (.modify_bind (forget_steps a₂ #[] a₂.arrivals a₂.stats) ?_)
  have h₃ : RoundInvariant s.program (a₂.forget #[] a₂.arrivals a₂.stats) :=
    h₂.forget _ _ fun _ hx => hx
  refine .bind (hd.spec (hd.lookAtNewSites h₃.valid.grounded (hd.forget _ _ _ hi₂))) ?_
  rintro - a₄ - ⟨hr₄, hi₄, hd₄⟩
  have hb₄ := hd.changesOnlyBuilder hr₄
  refine .get_bind
    (.pure ⟨h₃.build hb₄ (hd.callsWait hi₄), hd.notedLookedAt hr₂ hd₂ hr₄ hd₄, ?_, ?_,
      fun hfound => ?_⟩)
  · exact hb₄.queue.trans hb₂.queue
  · exact hb₄.arrivals.trans hb₂.arrivals
  · simpa using hfound

theorem Covered.of_notedLookedAt (h : a.Covered p)
    (ha : NotedLookedAt (fun a n site o => Looked p a.builder n site o) a a') : a'.Covered p := by
  intro n site o hsite ho
  rcases ha.waits ⟨hsite, ho⟩ with hl | hnoted | ⟨hw, hnot⟩
  · exact Or.inl hl
  · exact Or.inr hnoted
  · exact Or.inl (ha.kept ((h n site o hw.1 hw.2).resolve_right hnot))

theorem resolveCalls_spec (hs : s.IsStandard) (h : RunInvariant s.program scale a) :
    TrySpec (Steps s.program) (resolveCalls s) a fun found a' =>
      RunInvariant s.program scale a' ∧ a'.queue = a.queue ∧ a'.arrivals = #[] ∧
        (found = false → a'.builder.newEdges = #[] ∧ a'.builder.newSites = #[]) := by
  refine ((looked_established hs).resolveCalls h.toRoundInvariant h.callsWait).mono
    fun found a₁ _ h₁ => ?_
  obtain ⟨hsteady, hlooked, hrest⟩ := h₁
  exact ⟨⟨hsteady, fun hscale => (h.covered hscale).of_notedLookedAt hlooked⟩, hrest⟩

/-! ## To the end -/

theorem round_spec (hs : s.IsStandard) (h : RunInvariant s.program scale a) :
    TrySpec (Steps s.program) (round s scale) a fun more a' =>
      RunInvariant s.program scale a' ∧ (more = false → Finished s.program scale a') := by
  let stats := { a.stats with iterations := a.stats.iterations + 1 }
  have h₀ : RunInvariant s.program scale (a.forget a.builder.newSites a.arrivals stats) :=
    ⟨h.toRoundInvariant.forget _ _ fun _ hx => hx, h.covered⟩
  unfold round
  refine .modify_bind (forget_steps a a.builder.newSites a.arrivals stats) ?_
  refine .bind (seed_spec h₀) fun seeded a₁ _ ⟨h₁, hnew₁, _⟩ => ?_
  refine .bind (propagate_spec s.fuel h₁) fun _ a₂ _ ⟨h₂, hqueue₂, hnew₂, _⟩ => .get_bind ?_
  split
  · refine .bind (resolveCalls_spec hs h₂) fun found a₃ _ ⟨h₃, hqueue₃, harr₃, hdone⟩ => ?_
    refine .pure ⟨h₃, fun hmore => ?_⟩
    obtain ⟨-, hfound⟩ := Bool.or_eq_false_iff.1 hmore
    exact ⟨h₃, hqueue₃.trans hqueue₂, (hdone hfound).1, fun _ => ⟨harr₃, (hdone hfound).2⟩⟩
  -- At the method level the calls are dropped, and nothing is claimed of them.
  · rename_i hscale
    have hno : scale ≠ .wholeProgram := fun heq => hscale (by simp [heq])
    refine .modify_bind (forget_steps a₂ #[] #[] a₂.stats) (.pure ?_)
    have h₃ : RunInvariant s.program scale (a₂.forget #[] #[] a₂.stats) :=
      ⟨h₂.toRoundInvariant.forget _ _ (by simp), fun heq => absurd heq hno⟩
    exact ⟨h₃, fun _ => ⟨h₃, hqueue₂, hnew₂.trans hnew₁, fun heq => absurd heq hno⟩⟩

theorem rounds_spec (hs : s.IsStandard) (fuel : Nat) (h : RunInvariant s.program scale a) :
    TrySpec (Steps s.program) (rounds s scale fuel) a fun _ a' =>
      Finished s.program scale a' := by
  induction fuel generalizing a with
  | zero => exact .throw
  | succ fuel ih =>
    unfold rounds
    refine .bind (round_spec hs h) fun more a₁ _ ⟨h₁, hdone⟩ => ?_
    split
    · exact ih h₁
    · rename_i hmore
      exact .pure (hdone (by simpa using hmore))

/-- What a run does first: it lays out the entries. -/
def enterEntries (s : Setting) : TryAnalysis Unit := do
  (← get).builder.graph.entries.forM fun f => discard (build (Build.enterEntry s f))

/-- What it does then. -/
def complete (s : Setting) (scale : Scale) : TryAnalysis Unit := do
  rounds s scale s.fuel
  modify collectStats

theorem solve_eq (s : Setting) (scale : Scale) :
    solve s scale = enterEntries s >>= fun _ => complete s scale := by
  unfold solve enterEntries complete
  rw [bind_assoc]

theorem enterEntries_changesOnlyBuilder (hs : s.IsStandard) (ha : a.builder.Sound s.program)
    (hlaid : a.builder.AllCallsWait s.program) :
    TrySpec (ChangesOnlyBuilder s.program) (enterEntries s) a
      fun _ a' => a'.builder.AllCallsWait s.program := by
  refine .get_bind
    ((TrySpec.forM_invariant (I := fun a' : Analysis => a'.builder.AllCallsWait s.program)
      (P := fun _ _ => True) (fun _ _ _ _ _ => trivial) hlaid fun f _ a₁ h₁ hlaid₁ =>
        .discard ?_).mono fun _ _ _ h => h.1)
  refine (build_spec (Build.enterEntry_spec hs.sound (h₁.layoutSteps.sound ha) hlaid₁)).mono ?_
  exact fun _ _ _ hlaid₂ => ⟨hlaid₂, trivial⟩

theorem enterEntries_spec (hs : s.IsStandard) (h : RunInvariant s.program scale a) :
    TrySpec (Steps s.program) (enterEntries s) a fun _ a' => RunInvariant s.program scale a' := by
  refine (changesOnlyBuilder_spec
    (enterEntries_changesOnlyBuilder hs h.valid.grounded.sound h.callsWait)).mono ?_
  rintro _ a₁ _ ⟨hb₁, hlaid₁⟩
  exact ⟨h.toRoundInvariant.build hb₁ hlaid₁, fun hscale => (h.covered hscale).build hb₁⟩

theorem complete_spec (hs : s.IsStandard) (h : RunInvariant s.program scale a) :
    TrySpec (Steps s.program) (complete s scale) a fun _ a' => Finished s.program scale a' := by
  refine .bind (rounds_spec hs s.fuel h) fun _ a₁ _ h₁ => ?_
  have heq : collectStats a₁ =
      a₁.forget a₁.builder.newSites a₁.arrivals (collectStats a₁).stats := rfl
  refine .modify ?_ ?_
  · rw [heq]
    exact forget_steps ..
  · rw [heq]
    exact ⟨⟨h₁.toRoundInvariant.forget _ _ fun _ hx => hx, h₁.covered⟩,
      h₁.queue, h₁.newEdges, h₁.calls⟩

/-- If the run succeeds, nothing is left to do. -/
theorem solve_spec (hs : s.IsStandard) (h : RunInvariant s.program scale a) :
    TrySpec (Steps s.program) (solve s scale) a fun _ a' => Finished s.program scale a' := by
  rw [solve_eq]
  exact .bind (enterEntries_spec hs h) fun _ _ _ h₁ => complete_spec hs h₁

/-- An analysis that has not begun. -/
theorem runInvariant_ofGraph {g : CallGraph} (hg : g.Consistent p) (c : Config) :
    RunInvariant p scale (ofGraph g c) where
  valid := {
    grounded := grounded_ofGraph hg c
    shown := fun ho => by simp [ofGraph] at ho
    edgeApplied := fun he => by simp [ofGraph, Builder.ofGraph, pag] at he }
  queued n o ho := by simp [ofGraph] at ho
  callsWait cid f hf := by simp [ofGraph, Builder.ofGraph] at hf
  arrived hx := by simp [ofGraph] at hx
  covered _ n site o hsite := by
    simp [ofGraph, Builder.ofGraph, pag, Pag.sitesOf, Pag.node?] at hsite

/-- The analysis starts from the seed and the entries, and succeeds with the result `a`. -/
def Completes (p : Program) (seed : Seed) (entries : List MethodSig) (c : Config) (a : Analysis) :
    Prop :=
  ∃ fuel d d', start { program := p, models := LibraryModel.standard, fuel } c
    (ofGraph (seed.graph p entries) c) d = (.ok (), a, d')

variable {seed : Seed} {entries : List MethodSig} {c : Config}

/-- A run that succeeds completes with the state that it ends in. -/
theorem completes_of_isOk {fuel : Nat} {d : Disk} {r : Except Failure Unit × Analysis × Disk}
    (hr : start { program := p, models := LibraryModel.standard, fuel } c
      (ofGraph (seed.graph p entries) c) d = r) (hok : r.1.isOk = true) :
    Completes p seed entries c r.2.1 := by
  obtain ⟨result, a, d'⟩ := r
  cases result with
  | ok _ => exact ⟨fuel, d, d', hr⟩
  | error e => cases hok

/-- Every run is a sequence of steps, whether it succeeds or not, and if it does, nothing is left to
do. -/
theorem solve_start_spec (fuel : Nat) :
    TrySpec (Steps p) (solve { program := p, models := LibraryModel.standard, fuel } scale)
      (ofGraph (seed.graph p entries) c) fun _ a' => Finished p scale a' :=
  solve_spec (s := { program := p, models := LibraryModel.standard, fuel })
    rfl (runInvariant_ofGraph (seed.graph_consistent p entries) c)

/-- What is left of a run that completes, without the report. -/
theorem Completes.solved (h : Completes p seed entries c a) : ∃ fuel,
    (solve { program := p, models := LibraryModel.standard, fuel } c.scale).run.run
      (ofGraph (seed.graph p entries) c) = (.ok (), a) := by
  obtain ⟨fuel, d, d', h⟩ := h
  refine ⟨fuel, ?_⟩
  unfold start at h
  split at h
  · cases h
  · rename_i a₁ hrun
    split at h
    · split at h
      · cases h
        exact hrun
      · cases h
    · cases h
      exact hrun

theorem Completes.finished (h : Completes p seed entries c a) : Finished p c.scale a := by
  obtain ⟨fuel, hrun⟩ := h.solved
  exact ((solve_start_spec fuel).of_run hrun).2

namespace Finished

theorem not_fresh (h : Finished p scale a) : o ∉ a.facts.freshOf n := by
  intro ho
  have hmem := h.queued n o ho
  rw [h.queue] at hmem
  cases hmem

/-- All facts are shown. -/
theorem mem_all (h : Finished p scale a) : o ∈ a.facts.all n ↔ o ∈ a.pag.ptsOf n := by
  refine ⟨fun ho => ?_, h.valid.grounded.exposed⟩
  rcases DiffStore.mem_all.1 ho with ho | ho
  · exact h.valid.shown ho
  · exact absurd ho h.not_fresh

/-- All facts are settled. -/
theorem settled (h : Finished p scale a) (ho : o ∈ a.pag.ptsOf n) : a.Settled n o :=
  ⟨(DiffStore.mem_all.1 (h.mem_all.2 ho)).resolve_right h.not_fresh, h.not_fresh⟩

/-- All edges are applied. -/
theorem edgeApplied (h : Finished p scale a) {e : FlowEdge} (he : e ∈ a.pag.edges) :
    a.EdgeApplied p e := by
  refine (h.valid.edgeApplied he).resolve_left ?_
  rw [h.newEdges]
  exact Array.not_mem_empty e

end Finished

end PointsTo.Analysis
