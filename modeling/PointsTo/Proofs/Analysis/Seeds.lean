import PointsTo.Proofs.Analysis.Closure
import PointsTo.Proofs.CallGraph.Seeds
import PointsTo.Proofs.Lockstep.Answers

/-!
# The seed of the call graph

Calls on receivers are resolved by objects, so what they were resolved by before the analysis should
not matter for its result. But a call is not followed if the callee is known to lead back to the
caller, and calls of the seed count for that. If no call closes a cycle that way, all seeds give the
same result (`seeds_agree`). In the program `recalled` a call of the class hierarchy closes a cycle,
though it is never made, and a result gets lost (`seeds_disagree`).
-/

namespace PointsTo.Analysis

variable {p : Program} {seed : Seed} {entries : List MethodSig} {c : Config} {a a' : Analysis}

/-- The calls that every seed has. -/
def directLinks (p : Program) (entries : List MethodSig) : List (FuncId × FuncId) :=
  (Seed.direct.graph p entries).links

/-- A run from a seed goes the same way as the one from direct calls, unless a call closes a
cycle. -/
theorem Completes.alike (hp : p.Closed) (h : Completes p .direct entries c a)
    (h' : Completes p seed entries c a') (hcycle : ¬a'.ClosesCycle p (directLinks p entries)) :
    a.Alike { strict := False, known := directLinks p entries } a' := by
  let cmp : Comparison := { strict := False, known := directLinks p entries }
  obtain ⟨fuel, hrun⟩ := h.solved
  obtain ⟨fuel', hrun'⟩ := h'.solved
  let s : Setting := { program := p, models := LibraryModel.standard, fuel }
  have hs : s.Comparable cmp fuel' := ⟨rfl, False.elim⟩
  have hadds := seed.graph_onlyCalls hp entries
  have hgraph : (Seed.direct.graph p entries).Alike cmp (seed.graph p entries) :=
    ⟨hadds.nodes, hadds.sites, hadds.dynSites, hadds.entries, List.Subset.refl _, hadds.links,
      False.elim⟩
  have hfollows : Follows cmp p (solve s c.scale) (solve (s.withFuel fuel') c.scale) _ _ :=
    solve_follows hs (alike_ofGraph (c := c) hgraph rfl rfl)
      (runInvariant_ofGraph (seed.graph_consistent p entries) c)
  have hrun₂ : (solve (s.withFuel fuel') c.scale).run.run (ofGraph (seed.graph p entries) c) =
    (.ok (), a') := hrun'
  rcases hfollows with (⟨-, h⟩ | ⟨-, hstarve | hstarve⟩) | ⟨-, hc⟩
  · rwa [hrun, hrun₂] at h
  · unfold Starves at hstarve
    rw [hrun] at hstarve
    cases hstarve
  · unfold Starves at hstarve
    rw [hrun₂] at hstarve
    cases hstarve
  · rw [hrun₂] at hc
    exact absurd hc hcycle

/-- In a call graph without cycles, nothing closes one. -/
theorem not_closesCycle {known : List (FuncId × FuncId)}
    (h : ∀ l ∈ a.builder.graph.links, a.builder.graph.reachable l.2 l.1 = false) :
    ¬a.ClosesCycle p known := by
  rintro ⟨stmt, f, g, ⟨i, st, obj, m, fn, -, -, -, -, -, -, -, e, he, -⟩, -, hreach, -⟩
  obtain ⟨i, hi, ⟨rfl, rfl⟩, -⟩ := CallGraph.edge?_eq_some_iff.1 he
  have hlink : (e.src, e.dst) ∈ a.builder.graph.links :=
    List.mem_map.2 ⟨e, by simpa using Array.mem_of_getElem? hi, rfl⟩
  rw [h _ hlink] at hreach
  cases hreach

namespace Sample

open Program

/-- The method that `recalled` starts with. -/
def entry : MethodSig := ⟨⟨file, "M"⟩, "main"⟩

/-- `a = new A; x = a.go()` in a method `main` of a class `M`, where `go` returns a new object. If
asked for, `go` also calls `z.main()`, where `z` is an `M` that is never assigned. -/
def recalled (back : Bool) : Program :=
  let (cls, p) := (addFile {} file false).2.addClass file "A" none
  let (go, p) := p.addMethod cls "go"
  let (home, p) := p.addClass file "M" none
  let (main, p) := p.addMethod home "main"
  let d := p.openBody main
  let (a, d) := d.localVar "a" (.object cls)
  let (x, d) := d.localVar "x" .any
  let (_, d) := d.assignNew a (.newObject cls)
  let (_, d) := d.call (some x) { kind := .member, method := go, base := some a, args := [] }
  let d := d.close.openBody go
  let (r, d) := d.localVar "r" .any
  let (z, d) := d.localVar "z" (.object home)
  let (_, d) := d.assignNew r (.newObject cls)
  let d := if back then
    (d.call none { kind := .member, method := main, base := some z, args := [] }).2 else d
  (d.ret (some r)).2.close

/-- The value of `x` in `recalled`. -/
def recalledX : ValueId := 1

def runFrom (seed : Seed) (p : Program) : Except Failure Unit × Analysis × Disk :=
  start { program := p, models := LibraryModel.standard, fuel := 20 } default
    (ofGraph (seed.graph p [entry]) default) {}

/-- What the analysis of a sample ends with. -/
def resultFrom (seed : Seed) (p : Program) : Analysis :=
  (runFrom seed p).2.1

end Sample

open Sample

/-- If the analysis completes from every seed, and no call closes a cycle, it answers the same from
all of them. -/
theorem seeds_agree (hp : p.Closed) {results : Seed → Analysis}
    (h : ∀ seed, Completes p seed entries c (results seed))
    (hcycle : ∀ seed, seed ≠ .direct → ¬(results seed).ClosesCycle p (directLinks p entries))
    (seed seed' : Seed) (v w : ValueId) :
    (results seed').mayAlias v w = (results seed).mayAlias v w := by
  have hdirect : ∀ seed, (results seed).mayAlias v w = (results .direct).mayAlias v w := by
    intro seed
    by_cases hseed : seed = .direct
    · rw [hseed]
    · exact ((h .direct).alike hp (h seed) (hcycle seed hseed)).mayAlias v w
  rw [hdirect seed', hdirect seed]

/-- In `recalled` without the call back, `x` has the object that `go` returns, from every seed. -/
theorem seeds_agree_recalled : (recalled false).Closed ∧
    (∀ seed, Completes (recalled false) seed [entry] default (resultFrom seed (recalled false))) ∧
      ∀ seed, (resultFrom seed (recalled false)).mayAlias recalledX recalledX = true := by
  have hclosed : (recalled false).Closed := ⟨by decide +kernel, by decide +kernel⟩
  have hok : ∀ seed, (runFrom seed (recalled false)).1.isOk = true := by
    intro seed
    cases seed <;> decide +kernel
  have hacyclic : ∀ seed, ∀ l ∈ (resultFrom seed (recalled false)).builder.graph.links,
      (resultFrom seed (recalled false)).builder.graph.reachable l.2 l.1 = false := by
    intro seed
    cases seed <;> decide +kernel
  have hcompletes : ∀ seed, Completes (recalled false) seed [entry] default
      (resultFrom seed (recalled false)) := fun seed => completes_of_isOk rfl (hok seed)
  refine ⟨hclosed, hcompletes, fun seed => ?_⟩
  refine (seeds_agree hclosed hcompletes (fun seed _ => ?_) .direct seed _ _).trans ?_
  · exact not_closesCycle (hacyclic seed)
  · decide +kernel

/-- The call back is never made, but it closes a cycle: resolved by class hierarchy, it keeps the
analysis from following the call of `go`, and `x` has no objects. -/
theorem seeds_disagree : (default : Config).Valid ∧ (recalled true).Closed ∧
    ∃ results : Seed → Analysis,
      (∀ seed, Completes (recalled true) seed [entry] default (results seed)) ∧
        (results .direct).mayAlias recalledX recalledX = true ∧
        (results .classHierarchy).mayAlias recalledX recalledX = false := by
  have hok : ∀ seed, (runFrom seed (recalled true)).1.isOk = true := by
    intro seed
    cases seed <;> decide +kernel
  refine ⟨by decide, ⟨by decide +kernel, by decide +kernel⟩, (resultFrom · (recalled true)),
    fun seed => completes_of_isOk rfl (hok seed), ?_, ?_⟩
  · decide +kernel
  · decide +kernel

end PointsTo.Analysis
