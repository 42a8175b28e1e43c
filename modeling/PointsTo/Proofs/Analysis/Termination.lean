import PointsTo.Proofs.Analysis.Scale

/-!
# Termination

An analysis goes on for ever only if it makes objects for ever: with a bound on the objects there is
one on everything else. There are two ways to make objects without end. A function can be bound, and
what comes out can be bound in turn (`BindsAgain`). And if contexts are made of objects, what is
allocated in such a context is an object to make further contexts of (`CallsItself`). Without
either, every run ends (`terminates`).
-/

namespace PointsTo

namespace Analysis

open Filter

variable {p : Program}

/-- The run from the entries on, with that much fuel. -/
def solveFrom (p : Program) (seed : Seed) (entries : List MethodSig) (c : Config) (fuel : Nat) :
    Except Failure Unit × Analysis :=
  (solve { program := p, models := LibraryModel.standard, fuel } c.scale).run.run
    (ofGraph (seed.graph p entries) c)

theorem solveFrom_misplaces (p : Program) (seed : Seed) (entries : List MethodSig) (c : Config)
    (objects : Nat) :
    Terminates p.IsMisplaced (KeepsConfined p (seed.graph p entries)) (Exceeds objects)
      (fun fuel => solve { program := p, models := LibraryModel.standard, fuel } c.scale)
      (ofGraph (seed.graph p entries) c) fun _ _ => True := by
  let s : Setting := { program := p, models := LibraryModel.standard, fuel := 0 }
  have hconsistent := seed.graph_consistent p entries
  have htargets := seed.graph_hasTargets p entries
  exact solve_terminates (s := s) rfl (runInvariant_ofGraph hconsistent c)
    (withinBounds_ofGraph hconsistent htargets c) htargets

theorem solveFrom_terminates (p : Program) (seed : Seed) (entries : List MethodSig) (c : Config)
    (objects : Nat) :
    Terminates p.Misassigns (KeepsConfined p (seed.graph p entries)) (Exceeds objects)
      (fun fuel => solve { program := p, models := LibraryModel.standard, fuel } c.scale)
      (ofGraph (seed.graph p entries) c) fun _ _ => True :=
  (solveFrom_misplaces p seed entries c objects).imp_fails fun _ => Program.IsMisplaced.misassigns

/-- Wherever a run has got to, there is nothing but what the program names, in contexts as they are
configured. -/
theorem solveFrom_confined (p : Program) (seed : Seed) (entries : List MethodSig) (c : Config)
    (fuel : Nat) : (solveFrom p seed entries c fuel).2.builder.Confined p (seed.graph p entries) ∧
      (solveFrom p seed entries c fuel).2.builder.contexts.k = c.kLimit ∧
      (solveFrom p seed entries c fuel).2.builder.contexts.sensitivity = c.sensitivity := by
  have hconfined := (withinBounds_ofGraph (seed.graph_consistent p entries)
    (seed.graph_hasTargets p entries) c).confined
  have hkeeps := ((solveFrom_terminates p seed entries c 0).runs fuel).spec.1
  exact ⟨hkeeps.confined hconfined, hkeeps.expands.contexts.k, hkeeps.expands.contexts.sensitivity⟩

/-- If no result of `bind` is assigned, and contexts are not made of objects, then there is a bound
on what a run makes, whatever its fuel. With enough fuel it ends, and more fuel changes nothing. It
succeeds then, or it fails at an assignment to something that is no place. -/
theorem terminates {seed : Seed} {entries : List MethodSig} {c : Config}
    (hbind : ∀ stmt, ¬p.BindsAt stmt) (hcontexts : c.sensitivity = .object → c.kLimit = 0) :
    (∃ bound, ∀ fuel, (solveFrom p seed entries c fuel).2.builder.Within bound) ∧
    ∃ r : Except Failure Unit × Analysis,
      (r.1 = .ok () ∨ ∃ e, p.Misassigns e ∧ r.1 = .error e) ∧
      ∀ᶠ fuel in atTop, solveFrom p seed entries c fuel = r := by
  let g := seed.graph p entries
  obtain ⟨objects, hobjects⟩ :=
    Builder.Confined.card_objects_le p g c.kLimit c.sensitivity hbind hcontexts
  have hcard : ∀ fuel, (solveFrom p seed entries c fuel).2.builder.pag.objects.card ≤ objects := by
    intro fuel
    obtain ⟨hb, hk, hs⟩ := solveFrom_confined p seed entries c fuel
    exact hobjects _ hb hk hs
  constructor
  · obtain ⟨bound, hwithin⟩ := Builder.Confined.within p g c.kLimit objects
    refine ⟨bound, fun fuel => ?_⟩
    obtain ⟨hb, hk, -⟩ := solveFrom_confined p seed entries c fuel
    exact hwithin _ hb hk (hcard fuel)
  · obtain ⟨⟨x, a⟩, hrun, hfails⟩ := (solveFrom_terminates p seed entries c objects).settles
      fun fuel => Nat.not_lt.2 (hcard fuel)
    refine ⟨(x, a), ?_, hrun⟩
    cases x with
    | ok _ => exact Or.inl rfl
    | error e => exact Or.inr ⟨e, hfails e rfl, rfl⟩

open Sample

/-- In `nested` there are calls, but none of `bind`, and all that is assigned to is a place. -/
theorem terminates_nested : (∀ stmt, ¬nested.BindsAt stmt) ∧
    (∃ bound, ∀ fuel, (solveFrom nested .direct [main] default fuel).2.builder.Within bound) ∧
    ∃ a, ∀ᶠ fuel in atTop, solveFrom nested .direct [main] default fuel = (.ok (), a) := by
  have hbind : ∀ stmt, ¬nested.BindsAt stmt := Program.not_bindsAt (by decide +kernel)
  obtain ⟨hbound, ⟨x, a⟩, hx, hrun⟩ := terminates (c := default) hbind (by decide)
  refine ⟨hbind, hbound, a, ?_⟩
  rcases hx with rfl | ⟨e, he, -⟩
  · exact hrun
  · exact absurd he (Program.not_misassigns (by decide +kernel) e)

end Analysis

end PointsTo
