import PointsTo.Proofs.Analysis.Closure
import PointsTo.Proofs.Analysis.Looking
import PointsTo.Proofs.Confined.Rounds

/-!
# Method level and whole program

At the method level, calls on objects are looked at in the first round only. Up to there, and then
until facts have been passed on once more, such an analysis goes the same way as one of the whole
program. Then the one stops, and the other one goes on from where they are alike. All that it does
from there is to add something, so it ends up with everything that the first one has, under the
same ids (`methodLevel_partOf_wholeProgram`).
-/

namespace PointsTo

namespace Analysis

open Build

variable {s : Setting} {p : Program} {g : CallGraph} {scale : Scale} {cmp : Comparison} {k : Nat}
  {a a' : Analysis} {α β : Type}

/-! ## Counting rounds -/

/-- No round has begun in between. -/
def SameRound (a a' : Analysis) : Prop :=
  a'.stats.iterations = a.stats.iterations

instance : IsPreorder Analysis SameRound where
  refl _ := rfl
  trans _ _ _ h h' := h'.trans h

theorem build_sameRound {step : TryBuild α} :
    TrySpec SameRound (build step) a fun _ _ => True :=
  ⟨rfl, fun _ _ => trivial⟩

theorem resolveCalls_sameRound : TrySpec SameRound (resolveCalls s) a fun _ _ => True := by
  have hcarries : Lifts AnyChange SameRound := ⟨fun _ => rfl, fun _ => rfl, fun _ => rfl⟩
  exact (resolveCalls_lifted hcarries s.lookGuarantees_anyChange).spec

theorem receive_sameRound (a : Analysis) (n : NodeId) (r : Bool × DiffStore) :
    SameRound a (a.receive n r) := by
  unfold receive SameRound
  dsimp only
  split <;> rfl

theorem seed_sameRound (a : Analysis) : SameRound a (seed a).2 := by
  have hreseed : ∀ (a : Analysis) n, SameRound a (a.reseed n) := by
    intro a n
    unfold reseed SameRound
    dsimp only
    split <;> rfl
  rw [seed_eq]
  refine trans_of SameRound (rfl : SameRound a a.takeEdges) (foldl_any fun e _ a₁ _ => ?_)
  unfold seedEdge
  split
  · exact receive_sameRound ..
  · cases a₁.refBase? e.src with
    | none => exact refl_of SameRound a₁
    | some n => exact hreseed a₁ n
  · cases a₁.refBase? e.dst with
    | none => exact refl_of SameRound a₁
    | some n => exact hreseed a₁ n
  all_goals exact hreseed a₁ e.src

theorem visit_sameRound (a : Analysis) (n : NodeId) : SameRound a (visit p a n) := by
  have hpass : ∀ (a : Analysis) facts dst, SameRound a (a.pass facts dst) := fun a facts dst =>
    trans_of SameRound (rfl : SameRound a a.countPropagation) (receive_sameRound ..)
  have hcopy : ∀ (a : Analysis) src dst, SameRound a (a.addCopy src dst) := by
    intro a src dst
    unfold addCopy
    dsimp only
    split
    · exact trans_of SameRound
        (rfl : SameRound a (a.setPag (a.pag.addEdge .copy src dst).2).countPropagation)
        (receive_sameRound ..)
    · exact refl_of SameRound a
  have hjoin : ∀ obj (a : Analysis) ref, SameRound a (joinField obj a ref) := by
    intro obj a ref
    unfold joinField
    split
    · exact refl_of SameRound a
    · refine trans_of SameRound (foldl_any fun dst _ a₁ _ => hcopy a₁ _ dst)
        (foldl_any fun src _ a₁ _ => hcopy a₁ src _)
  have hsettle : ∀ a : Analysis, SameRound a (a.settle n) := by
    intro a
    unfold settle SameRound
    dsimp only
    split <;> rfl
  have hfields : ∀ a : Analysis, SameRound a (a.joinFields n) := by
    intro a
    unfold joinFields
    dsimp only
    split
    · exact refl_of SameRound a
    · refine foldl_any fun obj _ a₁ _ => ?_
      split
      · exact foldl_any fun ref _ a₂ _ => hjoin obj a₂ ref
      · exact refl_of SameRound a₁
  have hthis : SameRound a (passThis p a n) := foldl_any fun dst _ a₁ _ => hpass a₁ _ dst
  have hcopies : ∀ a : Analysis, SameRound a (a.passCopies n) := fun a =>
    foldl_any fun dst _ a₁ _ => hpass a₁ _ dst
  exact trans_of SameRound (trans_of SameRound (trans_of SameRound hthis (hfields _)) (hcopies _))
    (hsettle _)

theorem propagate_sameRound (n : Nat) : TrySpec SameRound (propagate p n) a fun _ _ => True := by
  induction n generalizing a with
  | zero =>
    refine .get_bind ?_
    split
    · exact .throw
    · exact .pure trivial
  | succ n ih =>
    refine .get_bind ?_
    split
    · exact .pure trivial
    · refine .modify_bind rfl (.get_bind ?_)
      split
      · refine .get_bind ?_
        split
        · exact .throw
        · exact .modify_bind (visit_sameRound _ _) ih
      · exact ih

theorem enterEntries_sameRound : TrySpec SameRound (enterEntries s) a fun _ _ => True :=
  .get_bind (.forM_any fun _ _ _ _ => .discard build_sameRound)

/-! ## Two halves of a round -/

/-- The new edges are brought in, and facts passed on. Tells whether there were new edges. -/
def spread (s : Setting) : TryAnalysis Bool := do
  modify fun a => { a with stats := { a.stats with iterations := a.stats.iterations + 1 } }
  let seeded ← modifyGet seed
  propagate s.program s.fuel
  return seeded

/-- Then the calls are looked at, or dropped. -/
def lookOrDrop (s : Setting) (scale : Scale) (seeded : Bool) : TryAnalysis Bool := do
  if scale = .wholeProgram || (← get).stats.iterations = 1 then
    let discovered ← resolveCalls s
    return seeded || discovered
  else
    modify dropCalls
    return seeded

theorem round_eq (s : Setting) (scale : Scale) :
    round s scale = spread s >>= lookOrDrop s scale := by
  unfold round spread
  simp only [bind_assoc, pure_bind]
  rfl

/-- Rounds that succeed: there is a first one, and maybe there are others. -/
theorem rounds_eq_ok {n : Nat} (h : (rounds s scale n).run.run a = (.ok (), a')) :
    ∃ more b, (round s scale).run.run a = (.ok more, b) ∧
      (∃ seeded t, (spread s).run.run a = (.ok seeded, t) ∧
        (lookOrDrop s scale seeded).run.run t = (.ok more, b)) ∧
      (more = false ∧ a' = b ∨
        more = true ∧ ∃ n, (rounds s scale n).run.run b = (.ok (), a')) := by
  cases n with
  | zero => cases h
  | succ n =>
    unfold rounds at h
    obtain ⟨more, b, hround, hrest⟩ := TryGuarantees.of_bind h
    refine ⟨more, b, hround, TryGuarantees.of_bind (round_eq s scale ▸ hround), ?_⟩
    cases more with
    | false =>
      cases hrest
      exact Or.inl ⟨rfl, rfl⟩
    | true => exact Or.inr ⟨rfl, n, hrest⟩

/-- A run that succeeds: the entries are laid out, and the rounds succeed. -/
theorem solve_eq_ok (h : (solve s scale).run.run a = (.ok (), a')) :
    ∃ a₁ a₂, (enterEntries s).run.run a = (.ok (), a₁) ∧
      (rounds s scale s.fuel).run.run a₁ = (.ok (), a₂) ∧ a' = collectStats a₂ := by
  rw [solve_eq] at h
  obtain ⟨_, a₁, henter, hcomplete⟩ := TryGuarantees.of_bind h
  obtain ⟨_, a₂, hrounds, heq⟩ := TryGuarantees.of_bind hcomplete
  cases heq
  exact ⟨a₁, a₂, henter, hrounds, rfl⟩

/-! ### Passing facts on -/

theorem spread_nextRound : TrySpec (fun a a' : Analysis => a'.stats.iterations =
    a.stats.iterations + 1) (spread s) a fun _ _ => True := by
  let a₀ : Analysis := { a with stats := { a.stats with iterations := a.stats.iterations + 1 } }
  have hrest : TrySpec SameRound (do
      let seeded ← modifyGet seed
      propagate s.program s.fuel
      return seeded) a₀ fun _ _ => True :=
    .seq (.modifyGet (seed_sameRound a₀) trivial) fun _ _ _ =>
      .seq (propagate_sameRound _) fun _ _ _ => .pure trivial
  exact hrest

theorem RunInvariant.countRound (h : RunInvariant p scale a) (stats : Stats) :
    RunInvariant p scale { a with stats } :=
  ⟨h.toRoundInvariant.forget a.builder.newSites stats fun _ hx => hx, h.covered⟩

/-- No edges and no facts are left. -/
theorem spread_spec (h : RunInvariant s.program scale a) :
    TrySpec (Steps s.program) (spread s) a fun _ a' =>
      RunInvariant s.program scale a' ∧ a'.queue = [] ∧ a'.builder.newEdges = #[] := by
  unfold spread
  refine .modify_bind (forget_steps a a.builder.newSites a.arrivals _) ?_
  refine .bind (seed_spec (h.countRound _)) fun seeded a₁ _ ⟨h₁, hnew₁, _⟩ => ?_
  refine .bind (propagate_spec s.fuel h₁) fun _ a₂ _ ⟨h₂, hqueue₂, hnew₂, _⟩ => ?_
  exact .pure ⟨h₂, hqueue₂, hnew₂.trans hnew₁⟩

theorem spread_respects {fuel : Nat} (hfuel : cmp.strict → fuel = s.fuel) :
    TryRespects cmp.strict (Alike cmp) (spread s) (spread (s.withFuel fuel)) := by
  refine .bind (.modify fun _ _ h => h.countRound) fun _ => ?_
  refine .bind (.modifyGet fun _ _ h => h.seed) fun _ => ?_
  exact .bind (propagate_respects _ _ hfuel) fun _ => .pure

/-- Passing facts on comes to an end, and cannot fail. -/
theorem spread_terminates {F : Failure → Prop} {objects : Nat} (ho : RunInvariant s.program scale a)
    (hc : WithinBounds s.program g k a) : Terminates F (KeepsConfined s.program g) (Exceeds objects)
      (fun n => spread (s.withFuel n)) a fun _ _ => True := by
  unfold spread
  refine .modify_bind (.of_builder rfl fun _ => id) ?_
  have ho₀ := ho.countRound { a.stats with iterations := a.stats.iterations + 1 }
  have hc₀ := hc.countRound ho₀.valid.grounded
  have hseed : KeepsConfined s.program g _ _ := seed_keepsConfined hc₀.confined
  have ho₁ := ((seed_spec ho₀).of_run rfl).2.1
  have hc₁ : WithinBounds s.program g k _ := hc₀.keep hseed ho₁.valid.grounded
    (Alike.countRound hc.canonical).seed.2
  refine .bind (P := fun _ a₁ => WithinBounds s.program g k a₁)
    (.of_tryTerminates (.modifyGet hseed hc₁)) ?_
  intro _ a₁ _ hc₁
  exact .seq (propagate_terminates hc₁) fun _ _ _ => .pure trivial

theorem spread_keepsConfined (ho : RunInvariant s.program scale a)
    (hc : WithinBounds s.program g k a) :
    TrySpec (KeepsConfined s.program g) (spread s) a fun _ a' => WithinBounds s.program g k a' := by
  have hends : Terminates (fun _ => False) (KeepsConfined s.program g) (Exceeds 0)
      (fun n => spread (s.withFuel n)) a fun _ _ => True := spread_terminates ho hc
  have hkeeps : TrySpec (KeepsConfined s.program g) (spread s) a fun _ _ => True :=
    (hends.runs s.fuel).spec
  have hcanonical : TrySpec AnyChange (spread s) a fun _ a' => a'.Canonical :=
    (Follows.of_respects (p := s.program) (spread_respects fun _ => rfl) hc.canonical).canonical
  refine ⟨hkeeps.1, fun x hx => hc.keep hkeeps.1 ?_ (hcanonical.2 x hx)⟩
  exact ((spread_spec ho).2 x hx).1.valid.grounded

/-- Without new edges there is nothing to bring in. -/
theorem seed_idle (h : a.builder.newEdges = #[]) : seed a = (false, a) := by
  obtain ⟨builder, facts, queue, arrivals, stats⟩ := a
  obtain ⟨pag, graph, contexts, summaries, built, pending, links, singletons, unhandled, newEdges,
    newSites⟩ := builder
  obtain rfl : newEdges = #[] := h
  rfl

/-- If there is nothing to do, only the round is counted. -/
theorem spread_idle (hqueue : a.queue = []) (hedges : a.builder.newEdges = #[]) :
    ∃ stats, (spread s).run.run a = (.ok false, { a with stats }) := by
  let a₀ : Analysis := { a with stats := { a.stats with iterations := a.stats.iterations + 1 } }
  have hseed : seed a₀ = (false, a₀) := seed_idle hedges
  have hpropagate : (propagate s.program s.fuel).run.run a₀ = (.ok (), a₀) :=
    propagate_stops.stop s.fuel hqueue
  refine ⟨a₀.stats, ?_⟩
  have hrest : (do
      propagate s.program s.fuel
      return (seed a₀).1 : TryAnalysis Bool).run.run (seed a₀).2 = (.ok false, a₀) := by
    rw [hseed, run_bind_ok (congrArg Prod.fst hpropagate), hpropagate]
    rfl
  exact hrest

/-! ### Looking at calls -/

theorem lookOrDrop_look {seeded : Bool} (h : scale = .wholeProgram ∨ a.stats.iterations = 1) :
    (lookOrDrop s scale seeded).run.run a =
      (do return seeded || (← resolveCalls s) : TryAnalysis Bool).run.run a := by
  unfold lookOrDrop
  rw [run_get_bind, if_pos (by simpa using h)]

theorem lookOrDrop_drop {seeded : Bool} (h : scale = .methodLevel) (hn : a.stats.iterations ≠ 1) :
    (lookOrDrop s scale seeded).run.run a = (.ok seeded, dropCalls a) := by
  unfold lookOrDrop
  rw [run_get_bind, if_neg (by simp [h, hn])]
  rfl

theorem lookOrDrop_sameRound {seeded : Bool} :
    TrySpec SameRound (lookOrDrop s scale seeded) a fun _ _ => True := by
  refine .get_bind ?_
  split
  · exact .seq resolveCalls_sameRound fun _ _ _ => .pure trivial
  · exact .modify_bind rfl (.pure trivial)

/-- Calls are looked at from states alike. -/
theorem lookOrDrop_alike {fuel : Nat} {scale' : Scale} (hs : s.Comparable cmp fuel)
    (hedges : cmp.sameEdges) (h : a.Alike cmp a') (ho : RunInvariant s.program .wholeProgram a')
    (hround : a.stats.iterations = 1) {seeded more more' : Bool} {b b' : Analysis}
    (hrun : (lookOrDrop s scale seeded).run.run a = (.ok more, b))
    (hrun' : (lookOrDrop (s.withFuel fuel) scale' seeded).run.run a' = (.ok more', b')) :
    more' = more ∧ b.Alike cmp b' := by
  rw [lookOrDrop_look (Or.inr hround)] at hrun
  rw [lookOrDrop_look (Or.inr (h.iterations.trans hround))] at hrun'
  obtain ⟨found, b₁, hfound, heq⟩ := TryGuarantees.of_bind hrun
  obtain ⟨found', b₁', hfound', heq'⟩ := TryGuarantees.of_bind hrun'
  cases heq
  cases heq'
  rcases resolveCalls_follows hs h ho with hmatch | ⟨hno, -⟩
  · obtain ⟨rfl, halike⟩ := hmatch.both_ok hfound hfound'
    exact ⟨rfl, halike⟩
  · exact absurd hedges hno

/-! ## All rounds -/

/-- At the method level, facts are passed on once more after the first round, and that is all. -/
theorem rounds_methodLevel {n : Nat} (ho : RunInvariant s.program .methodLevel a)
    (hround : a.stats.iterations ≠ 0) (h : (rounds s .methodLevel n).run.run a = (.ok (), a')) :
    ∃ seeded t, (spread s).run.run a = (.ok seeded, t) ∧
      a'.builder = { t.builder with newSites := #[] } := by
  obtain ⟨more, b, -, ⟨seeded, t, hspread, hlook⟩, hrest⟩ := rounds_eq_ok h
  refine ⟨seeded, t, hspread, ?_⟩
  have hcount : t.stats.iterations = a.stats.iterations + 1 := (spread_nextRound.of_run hspread).1
  obtain ⟨-, hqueue, hedges⟩ := ((spread_spec ho).of_run hspread).2
  rw [lookOrDrop_drop rfl (by omega)] at hlook
  cases hlook
  rcases hrest with ⟨-, rfl⟩ | ⟨-, n, hrest⟩
  · rfl
  · -- Nothing is left to bring in or to pass on, so the next round is the last one.
    obtain ⟨more', b', -, ⟨seeded', t', hspread', hlook'⟩, hrest'⟩ := rounds_eq_ok hrest
    have hcount' : t'.stats.iterations = t.stats.iterations + 1 :=
      (spread_nextRound.of_run hspread').1
    obtain ⟨stats, hidle⟩ := spread_idle (s := s) (a := dropCalls t) hqueue hedges
    rw [hidle] at hspread'
    cases hspread'
    rw [lookOrDrop_drop rfl (by omega)] at hlook'
    cases hlook'
    obtain ⟨-, rfl⟩ := hrest'.resolve_right fun h => Bool.false_ne_true h.1
    rfl

theorem round_keepsConfined (hs : s.IsStandard) (ho : RunInvariant s.program scale a)
    (hc : WithinBounds s.program g k a) :
    TrySpec (KeepsConfined s.program g) (round s scale) a fun _ a' =>
      RunInvariant s.program scale a' ∧ WithinBounds s.program g k a' := by
  have hends : Terminates s.program.IsMisplaced (KeepsConfined s.program g) (Exceeds 0)
      (fun n => round (s.withFuel n) scale) a fun _ _ => True := (round_terminates hs ho hc).any
  have hkeeps : TrySpec (KeepsConfined s.program g) (round s scale) a fun _ _ => True :=
    (hends.runs s.fuel).spec
  have hcanonical : TrySpec AnyChange (round s scale) a fun _ a' => a'.Canonical :=
    (round_follows (comparable_withFuel hs _ s.fuel) hc.canonical ho).canonical
  refine ⟨hkeeps.1, fun x hx => ?_⟩
  have ho' := ((round_spec hs ho).2 x hx).1
  exact ⟨ho', hc.keep hkeeps.1 ho'.valid.grounded (hcanonical.2 x hx)⟩

theorem rounds_keepsConfined (hs : s.IsStandard) (n : Nat) (ho : RunInvariant s.program scale a)
    (hc : WithinBounds s.program g k a) :
    TrySpec (KeepsConfined s.program g) (rounds s scale n) a fun _ _ => True := by
  induction n generalizing a with
  | zero => exact .throw
  | succ n ih =>
    refine .bind (round_keepsConfined hs ho hc) fun more a₁ _ ⟨ho₁, hc₁⟩ => ?_
    split
    · exact ih ho₁ hc₁
    · exact .pure trivial

theorem resolveCalls_keepsConfined (hs : s.IsStandard) (ho : RunInvariant s.program scale a)
    (hc : WithinBounds s.program g k a) :
    TrySpec (KeepsConfined s.program g) (resolveCalls s) a fun _ a' =>
      RunInvariant s.program scale a' ∧ WithinBounds s.program g k a' := by
  have hends : Terminates s.program.IsMisplaced (KeepsConfined s.program g) (Exceeds 0)
      (fun n => resolveCalls (s.withFuel n)) a fun _ _ => True :=
    (resolveCalls_terminates hs hc.confined ho.arrived).any
  have hkeeps : TrySpec (KeepsConfined s.program g) (resolveCalls s) a fun _ _ => True :=
    (hends.runs s.fuel).spec
  have hcanonical : TrySpec AnyChange (resolveCalls s) a fun _ a' => a'.Canonical :=
    (resolveCalls_follows (comparable_withFuel hs _ s.fuel) hc.canonical ho).canonical
  refine ⟨hkeeps.1, fun x hx => ?_⟩
  have ho' := ((resolveCalls_spec hs ho).2 x hx).1
  exact ⟨ho', hc.keep hkeeps.1 ho'.valid.grounded (hcanonical.2 x hx)⟩

/-- In an analysis of the whole program, what comes after facts have been passed on keeps
everything. -/
theorem keepsConfined_of_look (hs : s.IsStandard) (ho : RunInvariant s.program .wholeProgram a)
    (hc : WithinBounds s.program g k a) {seeded more : Bool} {b : Analysis}
    (hlook : (lookOrDrop s .wholeProgram seeded).run.run a = (.ok more, b))
    (hrest : more = false ∧ a' = b ∨
      more = true ∧ ∃ n, (rounds s .wholeProgram n).run.run b = (.ok (), a')) :
    KeepsConfined s.program g a a' := by
  rw [lookOrDrop_look (Or.inl rfl)] at hlook
  obtain ⟨found, b₁, hfound, heq⟩ := TryGuarantees.of_bind hlook
  cases heq
  obtain ⟨hkeeps, ho₁, hc₁⟩ := (resolveCalls_keepsConfined hs ho hc).of_run hfound
  rcases hrest with ⟨-, rfl⟩ | ⟨-, n, hrest⟩
  · exact hkeeps
  · exact trans_of (KeepsConfined s.program g) hkeeps
      ((rounds_keepsConfined hs n ho₁ hc₁).of_run hrest).1

theorem enterEntries_keepsConfined (hs : s.IsStandard) (ho : RunInvariant s.program scale a)
    (hc : WithinBounds s.program g k a) (htargets : a.builder.graph.HasTargets) :
    TrySpec (KeepsConfined s.program g) (enterEntries s) a fun _ a' =>
      RunInvariant s.program scale a' ∧ WithinBounds s.program g k a' := by
  have hends : Terminates s.program.IsMisplaced (KeepsConfined s.program g) (Exceeds 0)
      (fun n => enterEntries (s.withFuel n)) a fun _ _ => True :=
    enterEntries_terminates hs hc.confined htargets
  have hkeeps : TrySpec (KeepsConfined s.program g) (enterEntries s) a fun _ _ => True :=
    (hends.runs s.fuel).spec
  have hcanonical : TrySpec AnyChange (enterEntries s) a fun _ a' => a'.Canonical :=
    (Follows.of_respects (enterEntries_respects (comparable_withFuel hs _ s.fuel))
      hc.canonical).canonical (p := s.program)
  refine ⟨hkeeps.1, fun x hx => ?_⟩
  have ho' := (enterEntries_spec hs ho).2 x hx
  exact ⟨ho', hc.keep hkeeps.1 ho'.valid.grounded (hcanonical.2 x hx)⟩

/-- Once the entries are laid out, rounds can begin. -/
theorem runInvariant_entered (hs : s.IsStandard) {seed : Seed} {entries : List MethodSig}
    {c : Config} (scale : Scale) (hrun : (enterEntries s).run.run
      (ofGraph (seed.graph s.program entries) c) = (.ok (), a)) :
    RunInvariant s.program scale a ∧
      WithinBounds s.program (seed.graph s.program entries) c.kLimit a := by
  have hconsistent := seed.graph_consistent s.program entries
  have htargets := seed.graph_hasTargets s.program entries
  exact ((enterEntries_keepsConfined hs (runInvariant_ofGraph hconsistent c)
    (withinBounds_ofGraph hconsistent htargets c) htargets).of_run hrun).2

/-! ## Both runs -/

end Analysis

/-- Everything that the one has found the other one has too, under the same ids. -/
structure Builder.PartOf (b b' : Builder) : Prop where
  /-- Nodes stand for the same things, in the same contexts. -/
  node : ∀ {n x}, b.pag.node? n = some x →
    ∃ y, b'.pag.node? n = some y ∧ y.cid = x.cid ∧ y.entity = x.entity ∧ y.kind = x.kind
  context : ∀ {cid ctx}, b.contexts.context? cid = some ctx → b'.contexts.context? cid = some ctx
  item : ∀ {i x}, b.contexts.item? i = some x → b'.contexts.item? i = some x
  edge : ∀ {e}, e ∈ b.pag.edges → e ∈ b'.pag.edges
  pts : ∀ n, b.pag.ptsOf n ⊆ b'.pag.ptsOf n
  method : ∀ {f m}, b.graph.methodOf? f = some m → b'.graph.methodOf? f = some m
  /-- Calls are recorded between the same methods, in the same way. -/
  call : ∀ {f f' e}, b.graph.edge? f f' = some e →
    ∃ e', b'.graph.edge? f f' = some e' ∧ ∀ kind, e.calls kind ⊆ e'.calls kind

/-- An edge stays, with the statements that it records. -/
theorem CallGraph.Grows.edge? {g g' : CallGraph} (h : g.Grows g') {f f' : FuncId} {e : CallEdge}
    (he : g.edge? f f' = some e) :
    ∃ e', g'.edge? f f' = some e' ∧ ∀ kind, e.calls kind ⊆ e'.calls kind := by
  obtain ⟨_, -, hends, -⟩ := CallGraph.edge?_eq_some_iff.1 he
  have hlink : (f, f') ∈ g'.links := by
    refine h.links (List.mem_map.2 ⟨e, ?_, by rw [hends.1, hends.2]⟩)
    exact Array.mem_toList_iff.2 (Array.mem_of_find?_eq_some he)
  obtain ⟨e', he'⟩ : ∃ e', g'.edge? f f' = some e' := by
    obtain ⟨x, hx, heq⟩ := List.mem_map.1 hlink
    cases heq
    refine Option.isSome_iff_exists.1 (Array.find?_isSome.2 ⟨x, Array.mem_toList_iff.1 hx, ?_⟩)
    simp
  refine ⟨e', he', fun kind stmt hstmt => ?_⟩
  obtain ⟨e'', he'', hmem⟩ := h.calls ⟨e, he, hstmt⟩
  rw [he'] at he''
  cases he''
  exact hmem

namespace Builder

variable {p : Program} {g : CallGraph} {cmp : Comparison} {b b₁ b' : Builder}

/-- What is kept from a builder alike on is found. -/
theorem partOf_of_keepsConfined (h : b.Alike cmp b₁) (hedges : cmp.sameEdges)
    (hkeeps : KeepsConfined p g b₁ b') : b.PartOf b' where
  node := fun {n x} hx => by
    rcases h.pag.cases n with ⟨x', y, hx', hy, hxy⟩ | ⟨hnone, -⟩
    · rw [hx] at hx'
      cases hx'
      obtain ⟨z, hz, hgrows⟩ := hkeeps.expands.pag.node hy
      exact ⟨z, hz, hgrows.cid.trans hxy.cid, hgrows.entity.trans hxy.entity,
        hgrows.kind.trans hxy.kind⟩
    · rw [hx] at hnone
      cases hnone
  context hctx := hkeeps.expands.contexts.context (h.contexts ▸ hctx)
  item hx := hkeeps.expands.contexts.item (h.contexts ▸ hx)
  edge he := hkeeps.expands.pag.edge (h.pag.edges ▸ he)
  pts n o ho := hkeeps.expands.pag.pts (h.pag.ptsOf n ▸ ho)
  method hm := hkeeps.expands.graph.method ((h.graph.methodOf? _).trans hm)
  call he := by
    refine hkeeps.expands.graph.edge? ?_
    unfold CallGraph.edge? at he ⊢
    rw [h.graph.edges hedges]
    exact he

end Builder

namespace Analysis

variable {s : Setting} {p : Program} {g : CallGraph} {cmp : Comparison} {k : Nat} {a a' : Analysis}

/-- From states alike on, before the first round. -/
theorem rounds_partOf {fuel n n' : Nat} (hs : s.Comparable cmp fuel) (hedges : cmp.sameEdges)
    (h : a.Alike cmp a') (hround : a.stats.iterations = 0)
    (ho : RunInvariant s.program .methodLevel a) (ho' : RunInvariant s.program .wholeProgram a')
    (hc' : WithinBounds s.program g k a') {b b' : Analysis}
    (hrun : (rounds s .methodLevel n).run.run a = (.ok (), b))
    (hrun' : (rounds (s.withFuel fuel) .wholeProgram n').run.run a' = (.ok (), b')) :
    b.builder.PartOf b'.builder := by
  have hs' : (s.withFuel fuel).IsStandard := hs.standard
  -- The first round is the same for both.
  obtain ⟨more, a₁, hfirst, ⟨seeded, t, hspread, hlook⟩, hrest⟩ := rounds_eq_ok hrun
  obtain ⟨more', a₁', hfirst', ⟨seeded', t', hspread', hlook'⟩, hrest'⟩ := rounds_eq_ok hrun'
  obtain ⟨rfl, ht⟩ := (spread_respects hs.fuel h).both_ok hspread hspread'
  have hcount : t.stats.iterations = a.stats.iterations + 1 := (spread_nextRound.of_run hspread).1
  have hot' := ((spread_spec (s := s.withFuel fuel) ho').of_run hspread').2.1
  obtain ⟨rfl, h₁⟩ := lookOrDrop_alike hs hedges ht hot' (by omega) hlook hlook'
  rcases hrest with ⟨rfl, rfl⟩ | ⟨rfl, n, hrest⟩
  · obtain ⟨-, rfl⟩ := hrest'.resolve_right fun h => Bool.false_ne_true h.1
    exact Builder.partOf_of_keepsConfined h₁.builder hedges
      (refl_of (Builder.KeepsConfined s.program g) _)
  · -- The second one is the same until calls are looked at by one and dropped by the other.
    obtain ⟨n', hrest'⟩ := (hrest'.resolve_left fun h => Bool.false_ne_true h.1.symm).2
    have ho₁ := ((round_spec hs.standard ho).of_run hfirst).2.1
    obtain ⟨ho₁', hc₁'⟩ := ((round_keepsConfined hs' ho' hc').of_run hfirst').2
    have hcount₁ : a₁.stats.iterations = t.stats.iterations :=
      (lookOrDrop_sameRound.of_run hlook).1
    obtain ⟨seeded₁, u, hspread₁, hu⟩ := rounds_methodLevel ho₁ (by omega) hrest
    obtain ⟨more₁', a₂', -, ⟨seeded₁', u', hspread₁', hlook₁'⟩, hrest₁'⟩ := rounds_eq_ok hrest'
    obtain ⟨rfl, halike⟩ := (spread_respects hs.fuel h₁).both_ok hspread₁ hspread₁'
    have hou' := ((spread_spec (s := s.withFuel fuel) ho₁').of_run hspread₁').2.1
    have hcu' := ((spread_keepsConfined (s := s.withFuel fuel) ho₁' hc₁').of_run hspread₁').2
    have hpart : u.builder.PartOf b'.builder :=
      Builder.partOf_of_keepsConfined halike.builder hedges
        (keepsConfined_of_look hs' hou' hcu' hlook₁' hrest₁').toKeepsConfined
    rw [hu]
    exact { hpart with }

/-- At the method level, an analysis finds nothing that one of the whole program does not find. -/
theorem methodLevel_partOf_wholeProgram {seed : Seed} {entries : List MethodSig} {c : Config}
    (h : Completes p seed entries { c with scale := .methodLevel } a)
    (h' : Completes p seed entries { c with scale := .wholeProgram } a') :
    a.builder.PartOf a'.builder := by
  let cmp : Comparison :=
    { strict := False, known := [], sameEdges := True, sameEdges_of_strict := False.elim }
  obtain ⟨fuel, hsolved⟩ := h.solved
  obtain ⟨fuel', hsolved'⟩ := h'.solved
  let s : Setting := { program := p, models := LibraryModel.standard, fuel }
  have hs : s.Comparable cmp fuel' := ⟨rfl, False.elim⟩
  let g := seed.graph p entries
  have hgraph : g.Alike cmp g :=
    ⟨rfl, rfl, rfl, rfl, List.nil_subset _, List.Subset.refl _, fun _ => rfl⟩
  obtain ⟨a₁, a₂, henter, hrounds, rfl⟩ := solve_eq_ok (s := s) hsolved
  obtain ⟨a₁', a₂', henter', hrounds', rfl⟩ := solve_eq_ok (s := s.withFuel fuel') hsolved'
  have halike := ((enterEntries_respects hs) (alike_ofGraph hgraph rfl rfl)).both_ok henter henter'
  have ho₁ := (runInvariant_entered (s := s) rfl .methodLevel henter).1
  obtain ⟨ho₁', hc₁'⟩ := runInvariant_entered (s := s.withFuel fuel') rfl .wholeProgram henter'
  have hround : a₁.stats.iterations = 0 := (enterEntries_sameRound.of_run henter).1
  have hpart : a₂.builder.PartOf a₂'.builder :=
    rounds_partOf hs trivial halike.2 hround ho₁ ho₁' hc₁' hrounds hrounds'
  exact hpart

namespace Sample

open Program

/-- `a = new A; x = a.go()`, where `go` calls `b.hop()` on another new object `b` and returns the
object that `hop` makes. -/
def nested : Program :=
  let (cls, p) := (addFile {} file false).2.addClass file "A" none
  let (go, p) := p.addMethod cls "go"
  let (hop, p) := p.addMethod cls "hop"
  let d := p.openBody main
  let (a, d) := d.localVar "a" (.object cls)
  let (x, d) := d.localVar "x" .any
  let (_, d) := d.assignNew a (.newObject cls)
  let (_, d) := d.call (some x) { kind := .member, method := go, base := some a, args := [] }
  let d := d.close.openBody go
  let (b, d) := d.localVar "b" (.object cls)
  let (y, d) := d.localVar "y" .any
  let (_, d) := d.assignNew b (.newObject cls)
  let (_, d) := d.call (some y) { kind := .member, method := hop, base := some b, args := [] }
  let d := (d.ret (some y)).2.close.openBody hop
  let (r, d) := d.localVar "r" .any
  let (_, d) := d.assignNew r (.newObject cls)
  (d.ret (some r)).2.close

/-- The value of `x` in `nested`. -/
def nestedX : ValueId := 1

def runAt (scale : Scale) (p : Program) : Except Failure Unit × Analysis × Disk :=
  start { program := p, models := LibraryModel.standard, fuel := 20 }
    { (default : Config) with scale }
    (ofGraph (Seed.direct.graph p [main]) { (default : Config) with scale }) {}

/-- What the analysis of a sample ends with. -/
def resultAt (scale : Scale) (p : Program) : Analysis :=
  (runAt scale p).2.1

end Sample

open Sample

/-- In `nested`, the call of `hop` is followed in an analysis of the whole program only, so only
there does `x` get the object. -/
theorem methodLevel_partOf_wholeProgram_nested :
    (∀ scale, Completes nested .direct [main] { (default : Config) with scale }
      (resultAt scale nested)) ∧
    (resultAt .methodLevel nested).builder.PartOf (resultAt .wholeProgram nested).builder ∧
    (resultAt .methodLevel nested).mayAlias nestedX nestedX = false ∧
    (resultAt .wholeProgram nested).mayAlias nestedX nestedX = true := by
  have hcompletes : ∀ scale, Completes nested .direct [main] { (default : Config) with scale }
      (resultAt scale nested) := by
    intro scale
    refine completes_of_isOk rfl ?_
    cases scale <;> decide +kernel
  exact ⟨hcompletes, methodLevel_partOf_wholeProgram (hcompletes .methodLevel)
    (hcompletes .wholeProgram), by decide +kernel, by decide +kernel⟩

end Analysis

end PointsTo
