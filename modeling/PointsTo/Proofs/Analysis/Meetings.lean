import PointsTo.Proofs.Analysis.Driving
import PointsTo.Proofs.Links.Wholeness

/-!
# Calls that meet

A call that is looked at for an object sees everything that has reached the nodes by then, and no
node gets more while calls are looked at. So of two calls that wait for an object each, the one that
is looked at later sees the object of the other one: it was noted when it had come to its node.

Hence between the parts of a round, one of the two was looked at when the object of the other one
was there, unless one of them is still noted (`Paired`). When an analysis completes, nothing is
noted any more (`Completes.meet`). It does not matter which of the two comes first, nor in which
round.
-/

namespace PointsTo

/-- The empty context is the first one. -/
def Builder.Rooted (b : Builder) : Prop :=
  b.blank.contexts.Extends b.contexts

theorem Builder.Rooted.mono {b b' : Builder} (h : b.Rooted) (hb : b.Extends b') : b'.Rooted := by
  unfold Rooted
  rw [hb.blank_contexts]
  exact h.trans hb.contexts

namespace Analysis

open Builder (Actions)

variable {s : Setting} {p : Program} {a a' : Analysis} {n o m x : NodeId} {site : SiteRef}

/-- The call that waits at `n` was looked at for the object `o`, when `x` was at the node `m`. -/
structure LookedWith (p : Program) (b : Builder) (n : NodeId) (site : SiteRef) (o m x : NodeId) :
    Prop where
  run : ∃ (s : Setting) (a a' : Analysis), s.program = p ∧ s.IsStandard ∧ a.Grounded p ∧
    a.builder.AllCallsWait p ∧ a.builder.Rooted ∧ o < a.pag.nodes.size ∧ x ∈ a.pag.ptsOf m ∧
    (processSite s n site o).run.run a = (.ok (), a') ∧ a'.builder.Extends b

theorem LookedWith.mono {b b' : Builder} (h : LookedWith p b n site o m x) (hb : b.Extends b') :
    LookedWith p b' n site o m x := by
  obtain ⟨s, a, a', hs, hstandard, ha, hlaid, hroot, ho, hx, hrun, hretains⟩ := h.run
  exact ⟨s, a, a', hs, hstandard, ha, hlaid, hroot, ho, hx, hrun, hretains.trans hb⟩

theorem LookedWith.looked {b : Builder} (h : LookedWith p b n site o m x) :
    Looked p b n site o := by
  obtain ⟨s, a, a', hs, hstandard, ha, hlaid, -, ho, -, hrun, hretains⟩ := h.run
  exact ⟨s, a, a', hs, hstandard, ha.sound, hlaid, ho, hrun, hretains.pag, hretains.graph,
    fun _ => hretains.built⟩

/-- The call was looked at for the object when everything was there that is there now. -/
def LookedNow (p : Program) (a : Analysis) (n : NodeId) (site : SiteRef) (o : NodeId) : Prop :=
  ∀ m x, x ∈ a.pag.ptsOf m → LookedWith p a.builder n site o m x

/-! ## Looking at calls -/

/-- Something is built, and the builder takes nothing back. -/
structure ExtendsBuilder (p : Program) (a a' : Analysis) : Prop extends
    ChangesOnlyBuilder p a a' where
  extended : a.builder.Extends a'.builder

instance (p : Program) : IsPreorder Analysis (ExtendsBuilder p) where
  refl a := ⟨refl_of (ChangesOnlyBuilder p) a, .rfl⟩
  trans _ _ _ h h' :=
    ⟨trans_of (ChangesOnlyBuilder p) h.toChangesOnlyBuilder h'.toChangesOnlyBuilder,
      h.extended.trans h'.extended⟩

theorem lookedNow_established (hs : s.IsStandard) :
    EstablishedByLooking s (fun a => a.builder.AllCallsWait s.program ∧ a.builder.Rooted)
      (ExtendsBuilder s.program) (LookedNow s.program) where
  changesOnlyBuilder h := h.toChangesOnlyBuilder
  callsWait h := h.1
  stable h hl m x hx := (hl m x (h.layoutSteps.grows.pts hx)).mono h.extended
  forget _ _ _ h := h
  keep newSites _ _ hl m x hx := (hl m x hx).mono { Builder.Extends.rfl with }
  look {a n site o} ha hi ho := by
    obtain ⟨hlaid, hroot⟩ := hi
    have hbuilder : GuaranteesOn .all (OnBuilder (Actions s.program)) (processSite s n site o) :=
      processSite_lifted onBuilder_lifts (analysisGuarantees_actions hs.byActions).look
    have hretains := Actions.extends (hbuilder a trivial)
    have hhandles : TrySpec (ChangesOnlyBuilder s.program) (processSite s n site o) a _ :=
      processSite_calleeRecorded hs.sound ha.sound hlaid ho
    obtain ⟨hbuild, hdone⟩ := hhandles
    refine ⟨⟨hbuild, hretains⟩, fun _ hok => ⟨⟨(hdone _ hok).1, hroot.mono hretains⟩, ?_⟩⟩
    intro m x hx
    exact ⟨s, a, _, rfl, hs, ha, hlaid, hroot, ho, hbuild.layoutSteps.grows.pts hx,
      Prod.ext hok rfl, .rfl⟩

/-! ## Pairs of calls -/

/-- Of two calls that wait for an object each, one was looked at when the object of the other one
was there, or one is still noted. -/
structure Paired (p : Program) (a : Analysis) : Prop where
  rooted : a.builder.Rooted
  meets : ∀ {n site o m site' x}, a.Waits n site o → a.Waits m site' x →
    LookedWith p a.builder n site o m x ∨ LookedWith p a.builder m site' x n o ∨
      a.Noted n site o ∨ a.Noted m site' x

theorem Paired.covered (h : a.Paired p) : a.Covered p := by
  intro n site o hsite ho
  have hw : a.Waits n site o := ⟨hsite, ho⟩
  rcases h.meets hw hw with hl | hl | hnoted | hnoted
  · exact Or.inl hl.looked
  · exact Or.inl hl.looked
  · exact Or.inr hnoted
  · exact Or.inr hnoted

theorem Paired.of_keepsNoted (h : a.Paired p) (hp : KeepsNoted a a')
    (hb : a.builder.Extends a'.builder) : a'.Paired p := by
  refine ⟨h.rooted.mono hb, fun {n site o m site' x} hw hw' => ?_⟩
  rcases hp.waits hw with hw | hnoted
  · rcases hp.waits hw' with hw' | hnoted
    · exact (h.meets hw hw').imp (·.mono hb) (Or.imp (·.mono hb) (Or.imp hp.noted hp.noted))
    · exact Or.inr (Or.inr (Or.inr hnoted))
  · exact Or.inr (Or.inr (Or.inl hnoted))

/-- What was noted was looked at when all was there that is there now. -/
theorem Paired.of_notedLookedAt (h : a.Paired p) (ha : NotedLookedAt (LookedNow p) a a')
    (hb : a.builder.Extends a'.builder) : a'.Paired p := by
  refine ⟨h.rooted.mono hb, fun {n site o m site' x} hw hw' => ?_⟩
  rcases ha.waits hw with hl | hnoted | ⟨hold, hnot⟩
  · exact Or.inl (hl m x hw'.2)
  · exact Or.inr (Or.inr (Or.inl hnoted))
  · rcases ha.waits hw' with hl' | hnoted' | ⟨hold', hnot'⟩
    · exact Or.inr (Or.inl (hl' n o hw.2))
    · exact Or.inr (Or.inr (Or.inr hnoted'))
    · rcases h.meets hold hold' with hl | hl' | hnoted | hnoted'
      · exact Or.inl (hl.mono hb)
      · exact Or.inr (Or.inl (hl'.mono hb))
      · exact absurd hnoted hnot
      · exact absurd hnoted' hnot'

/-! ## To the end -/

section Runs

variable (hs : s.IsStandard)
include hs

theorem seed_paired (h : RunInvariant s.program .wholeProgram a) (hp : a.Paired s.program) :
    TrySpec (Steps s.program) (modifyGet seed : TryAnalysis Bool) a fun _ a' =>
      RunInvariant s.program .wholeProgram a' ∧ a'.Paired s.program := by
  have hbuilder :
    GuaranteesOn .all (OnBuilder (Actions s.program)) (modifyGet seed : TryAnalysis Bool) :=
    fun a _ => seed_onBuilder (analysisGuarantees_actions hs.byActions) a
  refine (hbuilder.along (seed_spec h)).mono ?_
  rintro _ a' - ⟨⟨h', -, hpasses⟩, hactions⟩
  exact ⟨h', hp.of_keepsNoted hpasses (Actions.extends hactions)⟩

theorem propagate_paired (h : RunInvariant s.program .wholeProgram a) (hp : a.Paired s.program) :
    TrySpec (Steps s.program) (propagate s.program s.fuel) a fun _ a' =>
      RunInvariant s.program .wholeProgram a' ∧ a'.Paired s.program := by
  have hbuilder := propagate_onBuilder (o := .all) (analysisGuarantees_actions hs.byActions) s.fuel
  refine (hbuilder.along (propagate_spec s.fuel h)).mono ?_
  rintro _ a' - ⟨⟨h', -, -, hpasses⟩, hactions⟩
  exact ⟨h', hp.of_keepsNoted hpasses (Actions.extends hactions)⟩

theorem resolveCalls_paired (h : RunInvariant s.program .wholeProgram a) (hp : a.Paired s.program) :
    TrySpec (Steps s.program) (resolveCalls s) a fun _ a' =>
      RunInvariant s.program .wholeProgram a' ∧ a'.Paired s.program := by
  have hbuilder := resolveCalls_onBuilder (o := .all) (analysisGuarantees_actions hs.byActions)
  have hgoes := (lookedNow_established hs).resolveCalls h.toRoundInvariant ⟨h.callsWait, hp.rooted⟩
  refine (hbuilder.along hgoes).mono ?_
  rintro found a' - ⟨⟨hsteady, hlooked, -⟩, hactions⟩
  have hp' := hp.of_notedLookedAt hlooked (Actions.extends hactions)
  exact ⟨⟨hsteady, fun _ => hp'.covered⟩, hp'⟩

theorem round_paired (h : RunInvariant s.program .wholeProgram a) (hp : a.Paired s.program) :
    TrySpec (Steps s.program) (round s .wholeProgram) a fun _ a' =>
      RunInvariant s.program .wholeProgram a' ∧ a'.Paired s.program := by
  let stats := { a.stats with iterations := a.stats.iterations + 1 }
  have h₀ : RunInvariant s.program .wholeProgram (a.forget a.builder.newSites a.arrivals stats) :=
    ⟨h.toRoundInvariant.forget _ _ fun _ hx => hx, h.covered⟩
  have hp₀ : (a.forget a.builder.newSites a.arrivals stats).Paired s.program :=
    hp.of_keepsNoted (.of_same rfl rfl rfl) .rfl
  unfold round
  refine .modify_bind (forget_steps a a.builder.newSites a.arrivals stats) ?_
  refine .bind (seed_paired hs h₀ hp₀) fun seeded a₁ _ ⟨h₁, hp₁⟩ => ?_
  refine .bind (propagate_paired hs h₁ hp₁) fun _ a₂ _ ⟨h₂, hp₂⟩ => .get_bind ?_
  simp only [decide_true, Bool.true_or, if_true]
  exact .bind (resolveCalls_paired hs h₂ hp₂) fun found a₃ _ h₃ => .pure h₃

theorem rounds_paired (fuel : Nat) (h : RunInvariant s.program .wholeProgram a)
    (hp : a.Paired s.program) : TrySpec (Steps s.program) (rounds s .wholeProgram fuel) a
      fun _ a' => a'.Paired s.program := by
  induction fuel generalizing a with
  | zero => exact .throw
  | succ fuel ih =>
    unfold rounds
    refine .bind (round_paired hs h hp) fun more a₁ _ hround => ?_
    obtain ⟨h₁, hp₁⟩ := hround
    split
    · exact ih h₁ hp₁
    · exact .pure hp₁

theorem enterEntries_paired (h : RunInvariant s.program .wholeProgram a) (hp : a.Paired s.program) :
    TrySpec (Steps s.program) (enterEntries s) a fun _ a' =>
      RunInvariant s.program .wholeProgram a' ∧ a'.Paired s.program := by
  have hbuilds :=
    changesOnlyBuilder_spec (enterEntries_changesOnlyBuilder hs h.valid.grounded.sound h.callsWait)
  refine ((enterEntries_actions hs.byActions).along hbuilds).mono ?_
  rintro _ a' - ⟨⟨hb, hlaid⟩, hactions⟩
  have hp' := hp.of_keepsNoted hb.keepsNoted (Actions.extends hactions)
  exact ⟨⟨h.toRoundInvariant.build hb hlaid, fun _ => hp'.covered⟩, hp'⟩

theorem solve_paired (h : RunInvariant s.program .wholeProgram a) (hp : a.Paired s.program) :
    TrySpec (Steps s.program) (solve s .wholeProgram) a fun _ a' => a'.Paired s.program := by
  rw [solve_eq]
  refine .bind (enterEntries_paired hs h hp) fun _ a₁ _ ⟨h₁, hp₁⟩ => ?_
  refine .bind (rounds_paired hs s.fuel h₁ hp₁) fun _ a₂ _ hp₂ => ?_
  exact .modify (forget_steps a₂ a₂.builder.newSites a₂.arrivals _)
    (hp₂.of_keepsNoted (.of_same rfl rfl rfl) .rfl)

end Runs

/-- Nothing waits in an analysis that has not begun. -/
theorem paired_ofGraph (g : CallGraph) (c : Config) : Paired p (ofGraph g c) where
  rooted := .rfl
  meets hw := by
    have hsite := hw.1
    simp [ofGraph, Builder.ofGraph, pag, Pag.sitesOf, Pag.node?] at hsite

variable {seed : Seed} {entries : List MethodSig} {c : Config}

/-- **Calls meet.** When an analysis of the whole program completes, of two calls that wait for an
object each, one was looked at when the object of the other one was there. -/
theorem Completes.meet (h : Completes p seed entries c a) (hscale : c.scale = .wholeProgram)
    {site' : SiteRef} (hw : a.Waits n site o) (hw' : a.Waits m site' x) :
    LookedWith p a.builder n site o m x ∨ LookedWith p a.builder m site' x n o := by
  have hfinished := h.finished
  rw [hscale] at hfinished
  obtain ⟨fuel, hrun⟩ := h.solved
  rw [hscale] at hrun
  have hpaired := ((solve_paired (s := { program := p, models := LibraryModel.standard, fuel }) rfl
    (runInvariant_ofGraph (seed.graph_consistent p entries) c) (paired_ofGraph _ c)).of_run hrun).2
  rcases hpaired.meets hw hw' with hl | hl | hnoted | hnoted
  · exact Or.inl hl
  · exact Or.inr hl
  · exact absurd hnoted hfinished.not_noted
  · exact absurd hnoted hfinished.not_noted

end Analysis

end PointsTo
