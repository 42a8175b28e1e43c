import PointsTo.Analysis.Propagate
import PointsTo.Analysis.Resolve

/-!
# Running to the fixpoint

A round brings in the new edges, passes all facts on, and looks at the calls that objects have
reached. Rounds go on until one has no new edges and finds nothing new. At the method level, calls
are looked at in the first round only.
-/

namespace PointsTo.Analysis

/-- Forgets the calls that objects have reached. -/
def dropCalls (a : Analysis) : Analysis :=
  { a with arrivals := #[], builder := { a.builder with newSites := #[] } }

/-- One round; tells whether another is needed. -/
def round (s : Setting) (scale : Scale) : TryAnalysis Bool := do
  modify fun a => { a with stats := { a.stats with iterations := a.stats.iterations + 1 } }
  let seeded ← modifyGet seed
  propagate s.program s.fuel
  if scale = .wholeProgram || (← get).stats.iterations = 1 then
    let discovered ← resolveCalls s
    return seeded || discovered
  else
    modify dropCalls
    return seeded

def rounds (s : Setting) (scale : Scale) : Nat → TryAnalysis Unit
  | 0 => throw .outOfFuel
  | n + 1 => do
    if ← round s scale then rounds s scale n

/-- Lays out the entries and runs to the fixpoint. Doing it again goes on from where it ended. -/
def solve (s : Setting) (scale : Scale) : TryAnalysis Unit := do
  (← get).builder.graph.entries.forM fun f => discard (build (Build.enterEntry s f))
  rounds s scale s.fuel
  modify collectStats

end PointsTo.Analysis
