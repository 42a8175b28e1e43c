import PointsTo.Proofs.Analysis.Looking
import PointsTo.Proofs.Confined.Rounds

/-!
# States at rest

A user of an analysis may set the entries and start it, and may do so again, whether it has
succeeded or not. So a round begins in one of the states that these steps leave, however they end
(`Analysis.Resting`), and not only where all of them succeed.

In all of these states the facts are grounded and the sets canonical (`Analysis.Stable`). That does
not depend on which methods are laid out completely, so a step keeps it even where it fails.
-/

namespace PointsTo

namespace CallGraph

variable {p : Program} {g : CallGraph}

theorem setEntries_grows (entries : List MethodSig) : g.Grows (g.setEntries p entries).2 := by
  have hnodes : g.Grows (g.nodesFor p .blank entries).2 :=
    nodesFor_keptByGrowth (P := fun g' => g.Grows g')
      (fun h => h.trans (nodeFor_grows ..)) .blank entries .rfl
  exact ⟨hnodes.method, hnodes.calls, hnodes.links, hnodes.sites, hnodes.dynSites⟩

end CallGraph

namespace Builder

open Build

variable {p : Program} {s : Setting} {b b' : Builder} {α : Type}

/-- The builder is sound, and its sets are canonical. -/
structure Stable (p : Program) (b : Builder) : Prop where
  sound : b.Sound p
  canonical : b.Alike { strict := True, known := [] } b

/-- A stable builder stays so. What it has stays, and no objects are shown that were not. -/
def StaysStable (p : Program) (b b' : Builder) : Prop :=
  b.Stable p → b'.Stable p ∧ b.pag.Extends b'.pag ∧ ∀ {n o}, o ∈ b'.pag.ptsOf n → o ∈ b.pag.ptsOf n

instance (p : Program) : IsPreorder Builder (StaysStable p) where
  refl _ h := ⟨h, .rfl, id⟩
  trans b₁ b₂ b₃ h h' hb := by
    obtain ⟨hb₂, hpag₂, hpts₂⟩ := h hb
    obtain ⟨hb₃, hpag₃, hpts₃⟩ := h' hb₂
    exact ⟨hb₃, hpag₂.trans hpag₃, fun ho => hpts₂ (hpts₃ ho)⟩

theorem staysStable_of
    (sound : b.Sound p → b'.Sound p ∧ b.pag.Extends b'.pag ∧
      ∀ {n o}, o ∈ b'.pag.ptsOf n → o ∈ b.pag.ptsOf n)
    (canonical : b.Alike { strict := True, known := [] } b →
      b'.Alike { strict := True, known := [] } b') : StaysStable p b b' := by
  intro h
  obtain ⟨hsound, hpag, hpts⟩ := sound h.sound
  exact ⟨⟨hsound, canonical h.canonical⟩, hpag, hpts⟩

/-- A step that cannot fail, and does the same for builders alike. -/
theorem guarantees_staysStable {m : Build α} {Q : Builder → α → Builder → Prop}
    (hgoes : ∀ {b : Builder}, b.Sound p → Spec (Steps p) m b (Q b))
    (hrespects : Respects (Alike { strict := True, known := [] }) m) :
    PointsTo.Guarantees (StaysStable p) m := by
  intro b
  refine staysStable_of (fun hb => ?_) fun h => (hrespects h).2
  have hsteps := (hgoes hb).1
  exact ⟨hsteps.sound hb, hsteps.grows.pag, hsteps.grows.pts⟩

/-- A step that may fail. If it does, the builder is stable all the same. -/
theorem guaranteesOn_staysStable {m : TryBuild α} {Q : Builder → α → Builder → Prop}
    (hgoes : ∀ {b : Builder}, b.Sound p → TrySpec (LayoutSteps p) m b (Q b))
    (hrespects : TryRespects True (Alike { strict := True, known := [] }) m m) :
    GuaranteesOn .all (StaysStable p) m := by
  intro b _
  refine staysStable_of (fun hb => ?_) fun h => ?_
  · have hlays := (hgoes hb).1
    exact ⟨hlays.sound hb, hlays.grows.pag, hlays.grows.pts⟩
  · rcases hrespects h with hmatch | ⟨hno, -⟩
    · exact hmatch.2
    · exact absurd trivial hno

section Standard

variable (hs : s.IsStandard)
include hs

/-- A setting does the same as itself. -/
theorem respects_self : s.Respects { strict := True, known := [] } :=
  (Analysis.comparable_withFuel hs _ s.fuel).respects

theorem enterEntry_staysStable {f : FuncId} :
    GuaranteesOn .all (StaysStable s.program) (enterEntry s f) :=
  guaranteesOn_staysStable (fun hb => enterEntry_layoutSteps hs.sound hb)
    (enterEntry_respects (respects_self hs) fun _ => rfl)

/-- Whatever looking at calls asks of a builder, it stays stable. -/
theorem lookGuarantees_staysStable : s.LookGuarantees .all (StaysStable s.program) where
  forget b := by
    refine staysStable_of (fun hb => ?_) fun h => { h with newSites := rfl }
    exact ⟨hb.of_extends .rfl rfl Or.inl id rfl rfl rfl, .rfl, id⟩
  func := guarantees_staysStable (fun _ => funcOf_spec) funcOf_respects
  call := by
    intro src dst stmt kind b
    refine staysStable_of (fun hb => ?_) fun h => ?_
    · have hgoes : Spec (Steps s.program) (addCall src dst stmt kind) b _ := addCall_spec
      have hsteps := hgoes.1
      exact ⟨hsteps.sound hb, hsteps.grows.pag, hsteps.grows.pts⟩
    · exact { h with graph := (h.graph.addCall src dst stmt kind).2 }
  unhandled := guarantees_staysStable (fun _ => addUnhandled_spec) addUnhandled_respects
  watch := guarantees_staysStable (fun hb => watchArg_spec hb) watchArg_respects
  binding _ := guarantees_staysStable (fun hb => Analysis.resolvedBinding_spec hb)
    Analysis.resolvedBinding_respects
  connect := guaranteesOn_staysStable (fun hb => connect_layoutSteps hs.sound hb)
    (connect_respects (enterNow_respects (respects_self hs) fun _ => rfl))
  models _ := guaranteesOn_staysStable (fun hb => runModels_layoutSteps hs.sound hb)
    (runModels_respects (respects_self hs) fun _ => rfl)

end Standard

end Builder

namespace Analysis

variable {p : Program} {s : Setting} {scale : Scale} {a a' : Analysis} {n : NodeId}

/-- The facts are grounded, and the sets canonical. -/
structure Stable (p : Program) (a : Analysis) : Prop where
  grounded : a.Grounded p
  canonical : a.Canonical

/-- An analysis stays stable. -/
def KeepsStable (p : Program) (a a' : Analysis) : Prop :=
  a.Stable p → a'.Stable p

instance (p : Program) : IsPreorder Analysis (KeepsStable p) where
  refl _ := id
  trans _ _ _ h h' ha := h' (h ha)

/-! ## Steps keep it -/

theorem lifts_keepsStable : Lifts (Builder.StaysStable p) (KeepsStable p) where
  builder := by
    intro a b h ha
    obtain ⟨hb, hpag, hpts⟩ := h ⟨ha.grounded.sound, ha.canonical.builder⟩
    refine ⟨?_, { ha.canonical with builder := hb.canonical }⟩
    exact ha.grounded.grow hpag hb.sound Or.inl fun ho => ha.grounded.exposed (hpts ho)
  count a ha :=
    ⟨(Step.schedule a.queue a.arrivals _).grounded ha.grounded,
      { ha.canonical with iterations := rfl, stats := fun _ => rfl }⟩
  arrivals a ha :=
    ⟨(Step.schedule a.queue #[] a.stats).grounded ha.grounded,
      { ha.canonical with arrivals := rfl }⟩

/-- Whether the entries could be laid out or not. -/
theorem enterEntries_stable (hs : s.IsStandard) :
    GuaranteesOn .all (KeepsStable s.program) (enterEntries s) :=
  .bind .get fun _ => .forM fun _ _ =>
    .discard (lifts_keepsStable.build (Builder.enterEntry_staysStable hs))

theorem resolveCalls_stable (hs : s.IsStandard) :
    GuaranteesOn .all (KeepsStable s.program) (resolveCalls s) :=
  resolveCalls_lifted lifts_keepsStable (Builder.lookGuarantees_staysStable hs)

theorem Stable.setStats (h : a.Stable p) (stats : Stats) : Stable p { a with stats } :=
  ⟨(Step.schedule a.queue a.arrivals stats).grounded h.grounded,
    { h.canonical with iterations := rfl, stats := fun _ => rfl }⟩

theorem Stable.setQueue (h : a.Stable p) (queue : List NodeId) : Stable p { a with queue } :=
  ⟨(Step.schedule queue a.arrivals a.stats).grounded h.grounded, { h.canonical with queue := rfl }⟩

theorem Stable.seed (h : a.Stable p) : Stable p (seed a).2 := by
  have htaken : a.takeEdges.Grounded p := (takeEdges_steps a).grounded h.grounded
  exact ⟨(seed_seeded h.grounded).1.steps.grounded htaken, (Alike.seed h.canonical).2⟩

theorem Stable.visit (h : a.Stable p) (n : NodeId) : Stable p (visit p a n) :=
  ⟨(visit_steps h.grounded).grounded h.grounded, Alike.visit h.canonical n⟩

theorem Stable.dropCalls (h : a.Stable p) : Stable p (dropCalls a) := by
  refine ⟨(forget_steps a #[] #[] a.stats).grounded h.grounded, ?_⟩
  exact { h.canonical with
    builder := { h.canonical.builder with newSites := rfl }
    arrivals := rfl }

theorem propagate_stable (n : Nat) : GuaranteesOn .all (KeepsStable p) (propagate p n) := by
  induction n with
  | zero =>
    refine .bind .get fun a => ?_
    split
    · exact .throw
    · exact .pure
  | succ n ih =>
    refine .bind .get fun a => ?_
    split
    · exact .pure
    · refine .bind (.modify fun a ha => ha.setQueue _) fun _ => .bind .get fun a => ?_
      split
      · refine .bind .get fun a => ?_
        split
        · exact .throw
        · exact .bind (.modify fun a ha => ha.visit _) fun _ => ih
      · exact ih

theorem round_stable (hs : s.IsStandard) :
    GuaranteesOn .all (KeepsStable s.program) (round s scale) := by
  unfold round
  refine .bind (.modify fun a ha => ha.setStats _) fun _ => ?_
  refine .bind (fun a _ ha => ha.seed) fun seeded => ?_
  refine .bind (propagate_stable s.fuel) fun _ => .bind .get fun a => ?_
  split
  · exact .bind (resolveCalls_stable hs) fun _ => .pure
  · exact .bind (.modify fun a ha => ha.dropCalls) fun _ => .pure

theorem Stable.setEntries (h : a.Stable p) (entries : List MethodSig) :
    Stable p (a.setEntries p entries).2 := by
  have hgraph := a.builder.graph.setEntries_grows (p := p) entries
  have hbuilder : Builder.StaysStable p a.builder (a.setEntries p entries).2.builder := by
    refine Builder.staysStable_of (fun hb => ?_) fun hb => { hb with graph := ?_ }
    · have hgrows : a.builder.Grows (a.setEntries p entries).2.builder :=
        .of_same rfl rfl rfl rfl hgraph id
      exact ⟨hb.of_same hgrows rfl rfl rfl (hb.graph.setEntries entries) Or.inl Or.inl, .rfl, id⟩
    · exact ⟨rfl, rfl, rfl, rfl, List.nil_subset _, List.Subset.refl _, fun _ => rfl⟩
  exact lifts_keepsStable.builder hbuilder h

theorem stable_ofGraph {g : CallGraph} (hg : g.Consistent p) (c : Config) :
    Stable p (ofGraph g c) where
  grounded := grounded_ofGraph hg c
  canonical := alike_ofGraph ⟨rfl, rfl, rfl, rfl, List.nil_subset _, List.Subset.refl _,
    fun _ => rfl⟩ rfl rfl

/-! ## Where a round can begin -/

/-- An analysis of a program at rest: nothing is under way, and a round can begin. Steps lead from
one such state to another, also where they fail. -/
inductive Resting (p : Program) : Analysis → Prop where
  | start {g : CallGraph} (consistent : g.Consistent p) (c : Config) : Resting p (ofGraph g c)
  | setEntries {a : Analysis} (entries : List MethodSig) (h : Resting p a) :
    Resting p (a.setEntries p entries).2
  | enter {a : Analysis} (fuel : Nat) (h : Resting p a) : Resting p
    ((enterEntries { program := p, models := LibraryModel.standard, fuel }).run.run a).2
  | round {a : Analysis} (fuel : Nat) (scale : Scale) (h : Resting p a) : Resting p
    ((round { program := p, models := LibraryModel.standard, fuel } scale).run.run a).2
  | report {a : Analysis} (h : Resting p a) : Resting p (collectStats a)

namespace Resting

theorem stable (h : Resting p a) : a.Stable p := by
  induction h with
  | start consistent c => exact stable_ofGraph consistent c
  | setEntries entries _ ih => exact ih.setEntries entries
  | enter fuel _ ih =>
    let s : Setting := { program := p, models := LibraryModel.standard, fuel }
    exact enterEntries_stable (s := s) rfl _ trivial ih
  | round fuel scale _ ih =>
    let s : Setting := { program := p, models := LibraryModel.standard, fuel }
    exact round_stable (s := s) rfl _ trivial ih
  | report _ ih => exact ih.setStats _

theorem rounds (h : Resting p a) (fuel n : Nat) : Resting p ((rounds
    { program := p, models := LibraryModel.standard, fuel } scale n).run.run a).2 := by
  induction n generalizing a with
  | zero => exact h
  | succ n ih =>
    have hround := h.round fuel scale
    unfold Analysis.rounds
    cases hx : ((Analysis.round { program := p, models := LibraryModel.standard, fuel }
        scale).run.run a).1 with
    | error e =>
      rw [run_bind_error hx]
      exact hround
    | ok more =>
      rw [run_bind_ok hx]
      cases more with
      | false => exact hround
      | true => exact ih hround

/-- A run leads from rest to rest, and so it does if it fails. -/
theorem solve (h : Resting p a) (fuel : Nat) (scale : Scale) : Resting p
    ((solve { program := p, models := LibraryModel.standard, fuel } scale).run.run a).2 := by
  let s : Setting := { program := p, models := LibraryModel.standard, fuel }
  have henter : Resting p ((enterEntries s).run.run a).2 := h.enter fuel
  show Resting p ((Analysis.solve s scale).run.run a).2
  rw [solve_eq]
  cases hx : ((enterEntries s).run.run a).1 with
  | error e =>
    rw [run_bind_error hx]
    exact henter
  | ok _ =>
    have hrounds : Resting p ((Analysis.rounds s scale fuel).run.run
      ((enterEntries s).run.run a).2).2 := henter.rounds fuel fuel
    rw [run_bind_ok hx]
    unfold complete
    cases hy : ((Analysis.rounds s scale fuel).run.run ((enterEntries s).run.run a).2).1 with
    | error e =>
      rw [run_bind_error hy]
      exact hrounds
    | ok _ =>
      rw [run_bind_ok hy]
      exact hrounds.report

end Resting

end Analysis

end PointsTo
