import PointsTo.Proofs.Lockstep.Runs

/-!
# Answers in lockstep

Questions about analyses alike have the same answers. If the comparison is strict, so have the
reports, and nothing is left in which two runs could differ but the backing of their sets.
-/

namespace PointsTo

/-! ## Questions -/

namespace Analysis.Alike

variable {cmp : Comparison} {a a' : Analysis}

theorem pointsTo (h : a.Alike cmp a') (v : ValueId) : (a.pointsTo v).Same (a'.pointsTo v) := by
  have join : ∀ (nodes : List NodeId) {s s' : ObjSet}, s.Same s' →
      (nodes.foldl (fun s n => (s.union (((a.pag.node? n).map Node.pts).getD s.clear)).2) s).Same
        (nodes.foldl (fun s n => (s.union (((a'.pag.node? n).map Node.pts).getD s.clear)).2)
          s') := by
    intro nodes
    induction nodes with
    | nil => exact fun hs => hs
    | cons n nodes ih =>
      intro s s' hs
      refine ih (hs.union ?_)
      rcases h.pag.cases n with ⟨x, y, hx, hy, hxy⟩ | ⟨hx, hy⟩
      · rw [hx, hy]
        exact hxy.pts
      · rw [hx, hy]
        exact ObjSet.same_empty _ _
  unfold Analysis.pointsTo
  rw [h.pag.nodesOf]
  exact join _ (ObjSet.same_empty _ _)

theorem mayAlias (h : a.Alike cmp a') (v w : ValueId) : a'.mayAlias v w = a.mayAlias v w :=
  ((h.pointsTo v).intersects (h.pointsTo w)).symm

end Analysis.Alike

/-! ## Reports -/

namespace Pag.Alike

variable {g g' : Pag}

theorem describe (h : g.Alike g') (n : NodeId) : g'.describe n = g.describe n := by
  unfold Pag.describe
  rcases h.cases n with ⟨x, y, hx, hy, hxy⟩ | ⟨hx, hy⟩
  · rw [hx, hy]
    dsimp only
    rw [hxy.kind, hxy.cid, hxy.entity]
  · rw [hx, hy]

theorem toDot (h : g.Alike g') : g'.toDot = g.toDot := by
  have hnodes : g'.describe = g.describe := funext h.describe
  unfold Pag.toDot legend Pag.edgeCount
  rw [h.edges, h.size, hnodes]

end Pag.Alike

/-- Under a strict comparison the call graphs are the same. -/
theorem CallGraph.Alike.eq {cmp : Comparison} {g g' : CallGraph} (h : g.Alike cmp g')
    (hs : cmp.strict) : g' = g := by
  cases g
  cases g'
  simp only [CallGraph.mk.injEq]
  exact ⟨h.nodes, h.edges (cmp.sameEdges_of_strict hs), h.sites, h.dynSites, h.entries⟩

namespace Analysis

variable {cmp : Comparison} {s : Setting} {p : Program} {a a' : Analysis}

theorem Alike.writeReport (h : a.Alike cmp a') (hs : cmp.strict) (r : ReportOptions) (d : Disk) :
    a'.writeReport r d = a.writeReport r d := by
  have hfiles : a'.reportFiles r = a.reportFiles r := by
    unfold reportFiles Builder.unhandledMethods
    rw [h.pag.toDot, h.builder.graph.eq hs, h.builder.unhandled, h.stats hs]
  unfold Analysis.writeReport
  rw [hfiles]

theorem Follows.match_of_strict {α : Type} {m m' : TryAnalysis α} (h : Follows cmp p m m' a a')
    (hs : cmp.strict) : Match (Alike cmp) m.run m'.run a a' := by
  rcases h with (h | ⟨hno, -⟩) | ⟨hno, -⟩
  · exact h
  · exact absurd hs hno
  · exact absurd (cmp.sameEdges_of_strict hs) hno

/-- The same outcome, the same files, and analyses alike. -/
theorem start_alike (hs : s.Comparable cmp s.fuel) (hstrict : cmp.strict) (h : a.Alike cmp a')
    (c c' : Config) (ho : RunInvariant s.program c.scale a') (hscale : c'.scale = c.scale)
    (hreport : c'.report = c.report) (d : Disk) :
    (start s c' a' d).1 = (start s c a d).1 ∧ (start s c' a' d).2.2 = (start s c a d).2.2 ∧
      (start s c a d).2.1.Alike cmp (start s c' a' d).2.1 := by
  have hmatch : Match (Alike cmp) (solve s c.scale).run (solve s c.scale).run a a' :=
    (solve_follows hs h ho).match_of_strict hstrict
  obtain ⟨heq, h₁⟩ := hmatch
  unfold start
  unfold StateT.run at heq h₁
  rw [hscale, hreport]
  rcases hrun : (solve s c.scale).run a with ⟨x, a₁⟩
  rcases hrun' : (solve s c.scale).run a' with ⟨x', a₁'⟩
  rw [hrun, hrun'] at heq h₁
  cases heq
  cases x with
  | error e => exact ⟨rfl, rfl, h₁⟩
  | ok _ =>
    dsimp only
    rw [h₁.writeReport hstrict]
    split
    · cases a₁.writeReport c.report d with
      | ok d₁ => exact ⟨rfl, rfl, h₁⟩
      | error e => exact ⟨rfl, rfl, h₁⟩
    · exact ⟨rfl, rfl, h₁⟩

end Analysis

end PointsTo
