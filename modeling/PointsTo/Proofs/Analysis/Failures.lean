import PointsTo.Proofs.Analysis.Termination
import PointsTo.Proofs.CallGraph.RapidTypes
import PointsTo.Proofs.Program.Assembly

/-!
# What an analysis fails at

Values, statements and nodes are named by their positions in tables, and every position that an
analysis keeps is there (`solveFrom_allInRange`). So there is nothing that it misses, and there is
one thing only that it fails at: an assignment to what is no place. It does so as soon as it reaches
the method, so if it succeeds, no method that is reached has such an assignment
(`fails_only_misplaced`).
-/

namespace PointsTo

open Index Program
open Relation (ReflTransGen)

variable {p : Program} {g : CallGraph} {b : Builder}

/-! ## Call graphs -/

theorem CallEdge.allInRange {n : Nat} {e : CallEdge}
    (h : ∀ kind, ∀ s ∈ e.calls kind, s < p.stmts.size) : AllInRange p n e.indices := by
  refine allInRange_map.2 fun s hs => ?_
  rcases List.mem_append.1 hs with hs | hs
  · rcases List.mem_append.1 hs with hs | hs
    · exact h .direct s hs
    · exact h .special s hs
  · exact h .indirect s hs

theorem CallSite.allInRange {n : Nat} {site : CallSite} (hp : p.Bounded)
    (h : ∃ i, p.invokeOf? site.stmt = some i ∧ site.args = i.args) :
    AllInRange p n site.indices := by
  obtain ⟨i, hi, hargs⟩ := h
  refine allInRange_cons.2 ⟨lt_of_invokeOf? hi, allInRange_map.2 ?_⟩
  rw [hargs]
  exact hp.lt_of_args hi

theorem DynCallSite.allInRange {n : Nat} {site : DynCallSite} (hp : p.Bounded)
    (h : ∃ i, p.invokeOf? site.stmt = some i ∧ site.args = i.args) :
    AllInRange p n site.indices := by
  obtain ⟨i, hi, hargs⟩ := h
  refine allInRange_cons.2 ⟨lt_of_invokeOf? hi, allInRange_map.2 ?_⟩
  rw [hargs]
  exact hp.lt_of_args hi

theorem CallGraph.GrownFrom.allInRange {n : Nat} {g' : CallGraph}
    (h : g.GrownFrom p g') (hp : p.Bounded)
    (hg : g.Recorded p) (hlabels : ∀ {s}, g.Labels s → ∃ i, p.invokeOf? s = some i) :
    AllInRange p n g'.indices := by
  simp only [CallGraph.indices, allInRange_append, allInRange_flatMap, Array.mem_toList_iff]
  refine ⟨⟨fun e he => CallEdge.allInRange fun kind s hs => ?_, fun site hsite => ?_⟩,
    fun site hsite => ?_⟩
  · rcases h.label ⟨e, he, kind, hs⟩ with hs | hs
    · obtain ⟨i, hi⟩ := hlabels hs
      exact lt_of_invokeOf? hi
    · exact hs
  · exact site.allInRange hp (hg.site site (h.sites ▸ hsite))
  · exact site.allInRange hp (hg.dynSite site (h.dynSites ▸ hsite))

/-! ## Graphs and summaries -/

namespace Builder

theorem HasEntity.allInRange {e : Entity} (hp : p.Bounded) (he : b.HasEntity p e) :
    AllInRange p b.pag.nodes.size e.indices := by
  cases e with
  | value v => simpa [Entity.indices] using hp.lt_of_mentions he
  | objField obj key =>
    obtain ⟨x, hx, -⟩ := he.2
    simpa [Entity.indices] using Pag.node?_lt hx
  | boundFunction stmt target =>
    obtain ⟨⟨i, v, hi, -⟩, hobj⟩ := he
    simpa [Entity.indices] using ⟨lt_of_invokeOf? hi, Analysis.lt_of_isObject hobj⟩
  | sdkReturn stmt => exact allInRange_cons.2 ⟨he, allInRange_nil⟩
  | staticField | globalThis | exported | modelSlot => exact allInRange_nil

theorem Confined.allInRange_node (h : b.Confined p g) (hp : p.Bounded) {n : NodeId} {x : Node}
    (hx : b.pag.node? n = some x) : AllInRange p b.pag.nodes.size x.indices := by
  have hadmits := h.node hx
  simp only [Node.indices, allInRange_append, allInRange_map]
  refine ⟨⟨⟨hadmits.entity.allInRange hp, hadmits.kind.index⟩, fun o ho => ?_⟩, fun site hs => ?_⟩
  · exact Analysis.lt_of_isObject (h.pag.shown (n := n) (by simpa [Pag.ptsOf, hx] using ho))
  · obtain ⟨i, hi, -⟩ := h.pag.site (n := n) (by simpa [Pag.sitesOf, hx] using hs)
    exact lt_of_invokeOf? hi

theorem Confined.allInRange_edge (h : b.Confined p g) {e : FlowEdge} (he : e ∈ b.pag.edges) :
    AllInRange p b.pag.nodes.size e.indices := by
  obtain ⟨hsrc, hdst⟩ := h.pag.edge he
  exact allInRange_cons.2 ⟨hsrc, allInRange_cons.2 ⟨hdst, allInRange_nil⟩⟩

theorem Confined.allInRange_pag (h : b.Confined p g) (hp : p.Bounded) :
    AllInRange p b.pag.nodes.size b.pag.indices := by
  simp only [Pag.indices, allInRange_append, allInRange_flatMap, Array.mem_toList_iff]
  refine ⟨⟨fun x hx => ?_, fun e he => h.allInRange_edge he⟩, fun r hr => ?_⟩
  · obtain ⟨n, hn⟩ := Array.getElem?_of_mem hx
    exact h.allInRange_node hp hn
  · obtain ⟨hbase, href⟩ := h.pag.access hr
    simpa using ⟨hp.lt_of_mentions hbase, hp.lt_of_mentions href⟩

theorem HasItem.allInRange {x : ContextItem} (h : b.HasItem g x) :
    AllInRange p b.pag.nodes.size x.indices := by
  cases x with
  | object obj => simpa [ContextItem.indices] using Analysis.lt_of_isObject h.2
  | callSite | function => exact allInRange_nil

end Builder

theorem Program.Names.allInRange {n : Nat} {e : Entity} (hp : p.Bounded) (he : p.Names e) :
    AllInRange p n e.indices := by
  cases e with
  | value v => simpa [Entity.indices] using hp.lt_of_mentions he
  | sdkReturn stmt => exact allInRange_cons.2 ⟨he, allInRange_nil⟩
  | objField | boundFunction => cases he
  | staticField | globalThis | exported | modelSlot => exact allInRange_nil

theorem Summary.Confined.allInRange {n : Nat} {s : Summary} (h : s.Confined p g) (hp : p.Bounded)
    (hg : g.Recorded p) : AllInRange p n s.indices := by
  simp only [Summary.indices, allInRange_append, allInRange_flatMap, allInRange_map]
  refine ⟨⟨⟨⟨⟨fun e he => ?_, fun site hsite => ?_⟩, fun site hsite => ?_⟩, fun site hsite => ?_⟩,
    fun v hv => hp.lt_of_mentions (mentions_of_isLocal (h.returns v hv))⟩, fun f hf => ?_⟩
  · obtain ⟨hsrc, hdst, hstmt⟩ := h.edges e he
    exact allInRange_cons.2 ⟨hstmt, allInRange_append.2 ⟨hsrc.allInRange hp, hdst.allInRange hp⟩⟩
  · exact site.allInRange hp (hg.site site (h.staticCalls site hsite))
  · exact site.allInRange hp (hg.dynSite site (h.dynamicCalls site hsite))
  · exact site.allInRange hp (hg.dynSite site (h.unknownCalls site hsite))
  · obtain ⟨v, hv⟩ := h.free f hf
    obtain ⟨rfl, hlocal⟩ := isLocal_of_freeLocal? hv
    simpa [FreeLocal.indices] using ⟨hp.lt_of_mentions (mentions_of_isLocal hlocal),
      hp.lt_of_mentions (mentions_decl_of_freeLocal? hv)⟩

/-! ## Builders -/

theorem Builder.Confined.allInRange (h : b.Confined p g) (hp : p.Bounded) (hg : g.Recorded p)
    (hlabels : ∀ {s}, g.Labels s → ∃ i, p.invokeOf? s = some i) :
    AllInRange p b.pag.nodes.size b.indices := by
  simp only [Builder.indices, allInRange_append, allInRange_flatMap, Array.mem_toList_iff]
  refine ⟨⟨⟨⟨⟨⟨h.allInRange_pag hp, h.graph.allInRange hp hg hlabels⟩, fun x hx => ?_⟩,
    fun s hs => (h.summary hs).confined.allInRange hp hg⟩, fun l hl => ?_⟩,
    fun e he => h.allInRange_edge (h.logged he)⟩, fun s hs => ?_⟩
  · obtain ⟨i, hi⟩ := Array.getElem?_of_mem hx
    exact (h.contexts.item hi).allInRange
  · obtain ⟨hvalue, hnode⟩ := h.link hl
    simpa using ⟨hp.lt_of_mentions hvalue, hnode⟩
  · have hsite := h.loggedSites hs
    obtain ⟨i, hi, -⟩ := h.pag.site hsite
    simpa using ⟨lt_of_mem_sitesOf hsite, lt_of_invokeOf? hi⟩

/-! ## Analyses -/

namespace Analysis

variable {a : Analysis}

theorem HoldsNodes.allInRange_facts (h : a.HoldsNodes) (ha : a.Grounded p) :
    AllInRange p a.pag.nodes.size a.facts.indices := by
  simp only [DiffStore.indices, allInRange_flatMap, allInRange_cons, allInRange_map,
    List.mem_append]
  rintro ⟨n, objs⟩ (hentry | hentry)
  · have hsome : a.facts.fresh? n = some objs :=
      Std.TreeMap.mem_toList_iff_getElem?_eq_some.1 hentry
    refine ⟨h n (Or.inr (Or.inr (Or.inl (by simp [hsome])))), fun o ho => ?_⟩
    refine lt_of_isObject (ha.object (n := n) (DiffStore.mem_all.2 (Or.inr ?_)))
    rw [DiffStore.freshOf, hsome]
    exact ObjSet.mem_def.2 ho
  · have hsome : a.facts.propagated? n = some objs :=
      Std.TreeMap.mem_toList_iff_getElem?_eq_some.1 hentry
    refine ⟨h n (Or.inr (Or.inr (Or.inr (by simp [hsome])))), fun o ho => ?_⟩
    refine lt_of_isObject (ha.object (n := n) (DiffStore.mem_all.2 (Or.inl ?_)))
    rw [DiffStore.propagatedOf, hsome]
    exact ObjSet.mem_def.2 ho

theorem HoldsNodes.allInRange (h : a.HoldsNodes) (ha : a.Grounded p)
    (hb : AllInRange p a.pag.nodes.size a.builder.indices) :
    AllInRange p a.pag.nodes.size a.indices := by
  simp only [Analysis.indices, allInRange_append, allInRange_flatMap, allInRange_cons,
    allInRange_map, Array.mem_toList_iff]
  refine ⟨⟨⟨hb, h.allInRange_facts ha⟩, fun n hn => h n (Or.inl hn)⟩, fun x hx => ?_⟩
  exact ⟨h x.1 (Or.inr (Or.inl ⟨x, hx, Or.inl rfl⟩)),
    fun n hn => h n (Or.inr (Or.inl ⟨x, hx, Or.inr hn⟩))⟩

/-! ## Runs -/

variable {seed : Seed} {entries : List MethodSig} {c : Config}

/-- Without a report, a run is over when it is solved. -/
theorem start_eq_solveFrom (hc : c.report.isEnabled = false) (seed : Seed)
    (entries : List MethodSig) (fuel : Nat) (d : Disk) :
    start { program := p, models := LibraryModel.standard, fuel } c
      (ofGraph (seed.graph p entries) c) d =
    ((solveFrom p seed entries c fuel).1, (solveFrom p seed entries c fuel).2, d) := by
  have hrun : (solve { program := p, models := LibraryModel.standard, fuel } c.scale).run
      (ofGraph (seed.graph p entries) c) = solveFrom p seed entries c fuel := rfl
  unfold start
  rw [hrun]
  obtain ⟨result, a⟩ := solveFrom p seed entries c fuel
  cases result with
  | error e => rfl
  | ok _ => simp [hc]

theorem holdsNodes_ofGraph (g : CallGraph) (c : Config) : (ofGraph g c).HoldsNodes := by
  rintro n (hn | ⟨x, hx, -⟩ | hn)
  · exact absurd hn List.not_mem_nil
  · exact absurd hx (Array.not_mem_empty x)
  · exact absurd hn (DiffStore.not_hasKey_new c.backing n)

/-- Wherever a run has got to, what it keeps a position of is there. -/
theorem solveFrom_allInRange (hp : p.Bounded) (seed : Seed) (entries : List MethodSig) (c : Config)
    (fuel : Nat) : AllInRange p (solveFrom p seed entries c fuel).2.pag.nodes.size
      (solveFrom p seed entries c fuel).2.indices := by
  have hconfined := (solveFrom_confined p seed entries c fuel).1
  have hkeeps := ((solveFrom_misplaces p seed entries c 0).runs fuel).spec.1
  have hsteps : Steps p (ofGraph (seed.graph p entries) c) (solveFrom p seed entries c fuel).2 :=
    (solve_start_spec fuel).1
  refine (hkeeps.scheduled (holdsNodes_ofGraph _ c)).allInRange ?_ ?_
  · exact hsteps.grounded (grounded_ofGraph (seed.graph_consistent p entries) c)
  · exact hconfined.allInRange hp (seed.graph_recorded p entries) seed.invokes_of_labels

/-- If a run succeeds, what it has laid out assigns to places only. -/
theorem solveFrom_placed {fuel : Nat} (hok : (solveFrom p seed entries c fuel).1 = .ok ())
    {f : FuncId} (hf : f ∈ (solveFrom p seed entries c fuel).2.builder.reached) :
    ∃ m, (solveFrom p seed entries c fuel).2.builder.graph.methodOf? f = some m ∧ p.IsPlaced m := by
  have hfinished : Finished p c.scale (solveFrom p seed entries c fuel).2 :=
    ((solve_start_spec fuel).of_run (Prod.ext hok rfl)).2
  obtain ⟨⟨cid, f⟩, hbuilt, rfl⟩ := List.mem_map.1 (Ascending.mem_ofList.1 hf)
  obtain ⟨s, hs, -⟩ := hfinished.callsWait cid f hbuilt
  exact ((solveFrom_confined p seed entries c fuel).1.summary (Builder.mem_of_summary? hs)).placed

/-- A program is put together, with whatever values there are, and analysed, from any methods on and
without a report. Wherever the run has got to, positions are in their tables. If it fails, it has
run out of fuel, or it is at an assignment to what is no place. If it succeeds, no method that it
has reached has such an assignment. -/
theorem fails_only_misplaced (hp : p.Assembled) (hc : c.report.isEnabled = false) (seed : Seed)
    (entries : List MethodSig) (fuel : Nat) (d : Disk) {result : Except Failure Unit}
    {a : Analysis} {d' : Disk}
    (hrun : start { program := p, models := LibraryModel.standard, fuel } c
      (ofGraph (seed.graph p entries) c) d = (result, a, d')) :
    AllInRange p a.pag.nodes.size (p.indices ++ a.indices) ∧
    (∀ e, result = .error e → e = .outOfFuel ∨ p.IsMisplaced e) ∧
    (result = .ok () →
      ∀ f ∈ a.builder.reached, ∃ m, a.builder.graph.methodOf? f = some m ∧ p.IsPlaced m) := by
  rw [start_eq_solveFrom hc] at hrun
  cases hrun
  refine ⟨allInRange_append.2 ⟨hp.bounded.inRange, ?_⟩, fun e he => ?_, fun hok f hf => ?_⟩
  · exact solveFrom_allInRange hp.bounded seed entries c fuel
  · exact ((solveFrom_misplaces p seed entries c 0).runs fuel).fails he
  · exact solveFrom_placed hok hf

namespace Sample

open Program

/-- A function beside `main`. -/
def aside : MethodSig := ⟨file.defaultClass, "f"⟩

/-- `x = new Object` in `main`. -/
def strayMain : Draft :=
  let p := ((addFile {} file false).2.addFunction file "f").2
  ((p.openBody main).localVar "x" .any).2.assignNew 0 (.newObject (.builtin "Object")) |>.2

/-- `0 = y` in the other function. -/
def strayAside : Draft :=
  (((strayMain.close.openBody aside).localVar "y" .any).2.constant "0" .any).2.assign 3 2 |>.2

/-- An assignment to a constant, where `main` does not get. -/
def stray : Program :=
  strayAside.close

theorem assembled_stray : stray.Assembled := by
  have hmain : ReflTransGen Draft.Step
      (((addFile {} file false).2.addFunction file "f").2.openBody main) strayMain :=
    .tail (.single (.localVar "x" (by decide))) (.assignNew (by decide +kernel))
  have haside : ReflTransGen Draft.Step (strayMain.close.openBody aside) strayAside :=
    .tail (.tail (.single (.localVar "y" (by decide))) (.constant "0" (by decide)))
      (.assign (by decide +kernel))
  exact .tail (.tail (.tail (.single (.file file false)) (.function file "f")) (.body main hmain))
    (.body aside haside)

def runStray (entry : MethodSig) : Except Failure Unit × Analysis × Disk :=
  start { program := stray, models := LibraryModel.standard, fuel := 20 } default
    (ofGraph (Seed.direct.graph stray [entry]) default) {}

end Sample

open Sample

/-- From `main` on the assignment is not reached and the run succeeds; from the other function on it
fails there. -/
theorem fails_only_misplaced_stray :
    ((runStray main).1 = .ok () ∧ ∀ f ∈ (runStray main).2.1.builder.reached,
      ∃ m, (runStray main).2.1.builder.graph.methodOf? f = some m ∧ stray.IsPlaced m) ∧
    (runStray aside).1 = .error (.nonLvalue 1 (.constant .any "0")) ∧
      stray.IsMisplaced (.nonLvalue 1 (.constant .any "0")) ∧
      AllInRange stray (runStray aside).2.1.pag.nodes.size
        (stray.indices ++ (runStray aside).2.1.indices) := by
  have hok : (runStray main).1 = .ok () := by decide +kernel
  have hfails : (runStray aside).1 = .error (.nonLvalue 1 (.constant .any "0")) := by decide +kernel
  obtain ⟨-, -, hplaced⟩ := fails_only_misplaced (c := default) assembled_stray rfl .direct [main]
    20 {} (Eq.refl (runStray main))
  obtain ⟨hin, hmisplaced, -⟩ := fails_only_misplaced (c := default) assembled_stray rfl .direct
    [aside] 20 {} (Eq.refl (runStray aside))
  refine ⟨⟨hok, hplaced hok⟩, hfails, ?_, hin⟩
  exact (hmisplaced _ hfails).resolve_left (by decide)

end Analysis

end PointsTo
