import PointsTo.Proofs.Analysis.Closure
import PointsTo.Proofs.Analysis.Driving
import PointsTo.Proofs.Analysis.Termination
import PointsTo.Proofs.CallGraph.RapidTypes
import PointsTo.Proofs.Context.CallStrings
import PointsTo.Proofs.Pag.Bookkeeping

/-!
# Methods that are analysed in one context

Calls of a method that shares what it returns lead to the empty context. There is one answer for
each method, whenever it is asked for, so such a method has no other context by calls. But entries,
and methods that set up what free locals stand for, are entered without asking. Where contexts are
made of functions that gives them a context of their own (`Analysis.EntersApart`).

An object that is allocated in a method has a node in the contexts of that method only.
-/

namespace PointsTo

open Builder (Action Actions RequestReason)

/-- Entered without a caller, a function starts a call string where functions make contexts. -/
theorem Sensitivity.rtake_entryItems (s : Sensitivity) (f k : Nat) : (s.entryItems f).rtake k =
    if s = .function ∧ k ≠ 0 then [.function f] else [] := by
  cases s with
  | callSite | object => simp [entryItems, List.rtake_nil]
  | function =>
    cases k with
    | zero => simp [entryItems, List.rtake_zero]
    | succ k => simpa [entryItems] using List.rtake_concat_succ [] k (ContextItem.function f)

theorem Summary.FromMethod.mono {p : Program} {s : Summary} {f : FuncId} {g g' : CallGraph}
    (h : s.FromMethod p g f) (hg : g.Grows g') : s.FromMethod p g' f := by
  refine ⟨fun hv ho => ?_, h.free⟩
  obtain ⟨m, hm, ha⟩ := h.assigned hv ho
  exact ⟨m, hg.method hm, ha⟩

theorem Program.setsUp_of_free {p : Program} {x : FreeLocal}
    (hx : Summarize.freeLocal? p x.name = some x) {name : String} {ty : Ty} {m : MethodSig}
    (hdecl : p.value? x.decl = some (.localVar name ty m)) : p.SetsUp m := by
  unfold Summarize.freeLocal? at hx
  obtain ⟨decl, hres, hx⟩ := Option.bind_eq_some_iff.1 hx
  split at hx
  · rw [← congrArg FreeLocal.decl (Option.some.inj hx)] at hdecl
    exact ⟨x.name, decl, name, ty, hres, hdecl⟩
  · cases hx

namespace Builder

variable {p : Program} {b b' : Builder} {f : FuncId} {cid : ContextId}

/-- The method is entered without being called. -/
def Entered (p : Program) (b : Builder) (f : FuncId) : Prop :=
  f ∈ b.graph.entries ∨ ∃ m, b.graph.methodOf? f = some m ∧ p.SetsUp m

/-- Where a method may be laid out, after the answer whether it is analysed in one context only. -/
inductive Placed (p : Program) (b : Builder) (f : FuncId) (cid : ContextId) : Prop where
  | shared (h : cid = Context.root)
  | apart (h : b.singletons.lookup f = some false)
  | entered (h : b.Entered p f) (read : b.contexts.read cid =
      some (((b.contexts.sensitivity.entryItems f).rtake b.contexts.k).map some))

/-- Every node of an object that is only assigned is in a context of a method that assigns it. -/
def HasOrigins (p : Program) (b : Builder) : Prop :=
  ∀ ⦃n node v⦄, b.pag.node? n = some node → node.entity = .value v → p.OnlyAssigned v →
    ∃ f m, (node.cid, f) ∈ b.built ∧ b.graph.methodOf? f = some m ∧ p.AssignedIn m v

/-- For everything that the builder has asked for and made there is a reason. -/
structure Accounted (p : Program) (b : Builder) : Prop where
  contexts : b.contexts.Sound
  consistent : b.graph.Consistent p
  unique : b.pag.Unique
  made : ∀ {f s}, b.summary? f = some s → s.FromMethod p b.graph f
  placed : ∀ {f cid}, b.Requested f cid → b.Placed p f cid
  origin : b.HasOrigins p

/-! ## Actions keep account -/

theorem Entered.mono (h : b.Entered p f) (hb : b.Extends b') : b'.Entered p f := by
  rcases h with h | ⟨m, hm, hsets⟩
  · exact Or.inl (hb.entries ▸ h)
  · exact Or.inr ⟨m, hb.graph.method hm, hsets⟩

theorem Placed.mono (h : b.Placed p f cid) (hb : b.Extends b') : b'.Placed p f cid := by
  cases h with
  | shared h => exact .shared h
  | apart h => exact .apart (hb.single h)
  | entered h hread =>
    refine .entered (h.mono hb) ?_
    rw [hb.contexts.sensitivity, hb.contexts.k]
    exact hb.contexts.read hread

/-- No node is new. -/
theorem HasOrigins.of_size (h : b.HasOrigins p) (hb : b.Extends b')
    (size : b'.pag.nodes.size = b.pag.nodes.size) : b'.HasOrigins p := by
  intro n node' v hn hv ho
  obtain ⟨node, hnode, hgrows⟩ := hb.pag.back (size ▸ Pag.node?_lt hn) hn
  obtain ⟨f, m, hf, hm, ha⟩ := h hnode (hgrows.entity ▸ hv) ho
  exact ⟨f, m, hgrows.cid ▸ hb.built hf, hb.graph.method hm, ha⟩

theorem RequestReason.sound {r : ContextId × ContextTable} (h : b.RequestReason p f r)
    (hb : b.contexts.Sound) : r.2.Sound := by
  cases h with
  | shared => exact hb
  | call caller site obj _ => exact hb.answer (.select caller site obj f)
  | entry | init => exact hb.answer (.entry f)

/-- A method is asked for in a context where it may be. -/
theorem RequestReason.placed {r : ContextId × ContextTable} (h : b.RequestReason p f r)
    (hb : b.Accounted p) (pending : List (FuncId × ContextId)) :
    Placed p { b with contexts := r.2, pending } f r.1 := by
  have hentry : ∀ h : b.Entered p f,
      Placed p { b with contexts := (b.contexts.entry f).2, pending } f (b.contexts.entry f).1 := by
    intro h
    refine .entered h ?_
    have hext := b.contexts.entry_extends f
    show (b.contexts.entry f).2.read _ = _
    rw [hext.sensitivity, hext.k]
    exact hb.contexts.read_entry f
  cases h with
  | shared => exact .shared rfl
  | call _ _ _ hsingle => exact .apart hsingle
  | entry h => exact hentry (Or.inl h)
  | init hsum hx hdecl hm =>
    exact hentry (Or.inr ⟨_, hm, Program.setsUp_of_free ((hb.made hsum).free _ hx) hdecl⟩)

theorem Action.accounted (h : Action p b b') (hb : b.Accounted p) : b'.Accounted p := by
  have hret := h.extends
  -- What is asked for stays in place. So this is about what is asked for anew.
  have hplaced : (∀ {f cid}, b'.Requested f cid → b.Requested f cid) →
      ∀ {f cid}, b'.Requested f cid → b'.Placed p f cid :=
    fun hback _ _ hf => (hb.placed (hback hf)).mono hret
  have horigin : b'.pag.nodes.size = b.pag.nodes.size → b'.HasOrigins p :=
    hb.origin.of_size hret
  cases h with
  | node cid e kind origin _ =>
    refine { hb with unique := hb.unique.addNode cid e kind, placed := hplaced id, origin := ?_ }
    intro n node v hn hv ho
    rcases Pag.node?_addNode hn with hn | ⟨-, rfl⟩
    · exact hb.origin hn hv ho
    · obtain ⟨f, s, hf, hs, hmentions⟩ := origin v hv ho
      obtain ⟨m, hm, ha⟩ := (hb.made hs).assigned hmentions ho
      exact ⟨f, m, hf, hm, ha⟩
  | draw pag links newEdges newSites extends_ size =>
    exact { hb with
      unique := hb.unique.of_extends extends_ size
      placed := hplaced id
      origin := horigin size }
  | graph graph grows consistent entries =>
    exact { hb with
      consistent := consistent hb.consistent
      made := fun hs => (hb.made hs).mono grows
      placed := hplaced id
      origin := horigin rfl }
  | summary f s made =>
    refine { hb with made := fun {f' s'} hs => ?_, placed := hplaced id, origin := horigin rfl }
    unfold summary? at hs
    rw [List.lookup_append] at hs
    rcases Option.or_eq_some_iff.1 hs with hs | ⟨-, hs⟩
    · exact hb.made hs
    · rw [List.lookup_cons] at hs
      split at hs
      · rename_i heq
        cases hs
        exact beq_iff_eq.1 heq ▸ made
      · cases hs
  | answer | unhandled => exact { hb with placed := hplaced id, origin := horigin rfl }
  | ask f asks =>
    refine { hb with contexts := asks.sound hb.contexts, placed := ?_, origin := horigin rfl }
    rintro f' cid (hf | hf)
    · rcases List.mem_append.1 hf with hf | hf
      · exact (hb.placed (Or.inl hf)).mono hret
      · cases List.mem_singleton.1 hf
        exact asks.placed hb _
    · exact (hb.placed (Or.inr hf)).mono hret
  | takeUp next =>
    refine { hb with placed := hplaced ?_, origin := horigin rfl }
    rintro f' cid' (hf | hf)
    · exact Or.inl (next ▸ List.mem_cons_of_mem _ hf)
    · rcases List.mem_cons.1 hf with heq | hf
      · cases heq
        exact Or.inl (next ▸ List.mem_cons_self)
      · exact Or.inr hf
  | drop next _ =>
    refine { hb with placed := hplaced ?_, origin := horigin rfl }
    rintro f' cid' (hf | hf)
    · exact Or.inl (next ▸ List.mem_cons_of_mem _ hf)
    · exact Or.inr hf

theorem Actions.accounted (h : Actions p b b') (hb : b.Accounted p) : b'.Accounted p := by
  induction h with
  | refl => exact hb
  | tail _ hact ih => exact hact.accounted ih

theorem accounted_ofGraph {g : CallGraph} (hg : g.Consistent p) (backing : Backing)
    (sensitivity : Sensitivity) (k : Nat) : (ofGraph g backing sensitivity k).Accounted p where
  contexts := ContextTable.proper_new _ sensitivity k
  consistent := hg
  unique := by
    intro n n' x x' hx
    cases hx
  made := nofun
  placed := by
    rintro f cid (hf | hf)
    · exact absurd hf List.not_mem_nil
    · exact absurd hf List.not_mem_nil
  origin := by
    intro n node v hn
    cases hn

/-- A method that is not analysed in one context only is known not to be. -/
theorem lookup_of_isSingleton
    (h : ((Build.isSingleton p f).run.run b).1 = .ok true) :
    b.singletons.lookup f ≠ some false := by
  intro hfalse
  unfold Build.isSingleton at h
  rw [run_get_bind, hfalse] at h
  cases h

/-- In one context, a value has at most one node. -/
theorem length_nodesOf_le {g : Pag} (hg : g.Unique) {v : ValueId} (cid : ContextId)
    (h : ∀ n node, g.node? n = some node → node.entity = .value v → node.cid = cid) :
    (g.nodesOf v).length ≤ 1 := by
  have hsub : ∀ n ∈ g.nodesOf v, ∀ n' ∈ g.nodesOf v, n = n' := by
    intro n hn n' hn'
    obtain ⟨x, hx, he⟩ := Option.map_eq_some_iff.1 (Pag.mem_nodesOf.1 hn)
    obtain ⟨x', hx', he'⟩ := Option.map_eq_some_iff.1 (Pag.mem_nodesOf.1 hn')
    exact hg hx hx' ((h n x hx he).trans (h n' x' hx' he').symm) (he.trans he'.symm)
  have hascending : (g.nodesOf v).Pairwise (· < ·) := g.pairwise_nodesWhere _
  generalize g.nodesOf v = ns at hsub hascending
  match ns with
  | [] | [_] => simp
  | n :: n' :: ns =>
    have hlt : n < n' := List.rel_of_pairwise_cons hascending List.mem_cons_self
    exact absurd (hsub n (by simp) n' (by simp)) (Nat.ne_of_lt hlt)

end Builder

namespace Program

/-- An object that is only assigned, and that in no other method. -/
structure AllocatedIn (p : Program) (m : MethodSig) (v : ValueId) : Prop
    extends p.OnlyAssigned v where
  only : ∀ decl ∈ p.methods, p.AssignedIn decl.sig v → decl.sig = m

instance (p : Program) (m : MethodSig) (v : ValueId) : Decidable (p.AllocatedIn m v) :=
  decidable_of_iff (((p.value? v).any Value.isAllocation = true ∧
    (∀ stmt ∈ p.stmts, stmt.defValue? ≠ some v) ∧ ∀ value ∈ p.values, value.base? ≠ some v) ∧
    ∀ decl ∈ p.methods, p.AssignedIn decl.sig v → decl.sig = m)
    ⟨fun ⟨⟨h₁, h₂, h₃⟩, h₄⟩ => ⟨⟨h₁, h₂, h₃⟩, h₄⟩,
      fun h => ⟨⟨h.allocation, h.target, h.base⟩, h.only⟩⟩

theorem AllocatedIn.eq {p : Program} {m m' : MethodSig} {v : ValueId} (h : p.AllocatedIn m v)
    (ha : p.AssignedIn m' v) : m' = m := by
  obtain ⟨a, ha', rfl⟩ := List.mem_map.1 ha
  obtain ⟨id, hid, -⟩ := List.mem_filterMap.1 ha'
  cases hdecl : p.method? m' with
  | none => simp [hdecl] at hid
  | some decl =>
    have hsig : decl.sig = m' := by simpa using Array.find?_some hdecl
    exact hsig ▸ h.only decl (Array.mem_of_find?_eq_some hdecl) (hsig ▸ ha)

end Program

namespace Analysis

variable {p : Program} {seed : Seed} {entries : List MethodSig} {c : Config} {fuel : Nat}

/-- The method has a context of its own when it is entered without being called. -/
def EntersApart (p : Program) (entries : List MethodSig) (c : Config) (m : MethodSig) : Prop :=
  c.sensitivity = .function ∧ c.kLimit ≠ 0 ∧ (m ∈ entries ∨ p.SetsUp m)

theorem solveFrom_actions (p : Program) (seed : Seed) (entries : List MethodSig) (c : Config)
    (fuel : Nat) : Builder.Actions p (ofGraph (seed.graph p entries) c).builder
      (solveFrom p seed entries c fuel).2.builder := by
  let s : Setting := { program := p, models := LibraryModel.standard, fuel }
  have hs : s.IsStandard := rfl
  exact solve_actions hs.byActions _ trivial

theorem solveFrom_accounted (p : Program) (seed : Seed) (entries : List MethodSig) (c : Config)
    (fuel : Nat) : (solveFrom p seed entries c fuel).2.builder.Accounted p :=
  (solveFrom_actions p seed entries c fuel).accounted
    (Builder.accounted_ofGraph (seed.graph_consistent p entries) c.backing c.sensitivity c.kLimit)

/-- The entries of a run are those that were asked for. -/
theorem solveFrom_entries (p : Program) (seed : Seed) (entries : List MethodSig) (c : Config)
    (fuel : Nat) {f : FuncId}
    (hf : f ∈ (solveFrom p seed entries c fuel).2.builder.graph.entries) :
    ∃ m ∈ entries, (solveFrom p seed entries c fuel).2.builder.graph.methodOf? f = some m := by
  have hret := (solveFrom_actions p seed entries c fuel).extends
  have hstart : ∀ f ∈ (seed.graph p entries).entries,
      ∃ m ∈ entries, (seed.graph p entries).methodOf? f = some m := by
    refine seed.graph_keptByGrowth
      (P := fun g => ∀ f ∈ g.entries, ∃ m ∈ entries, g.methodOf? f = some m)
      ⟨?_, ?_⟩ ((CallGraph.addProgram {} p).mem_nodesFor p .blank entries).1
    · intro g m' missing h f hf
      obtain ⟨m, hm, hmethod⟩ := h f (g.entries_nodeFor p m' missing ▸ hf)
      exact ⟨m, hm, (g.nodeFor_grows p m' missing).method hmethod⟩
    · intro g src dst stmt kind h f hf
      obtain ⟨m, hm, hmethod⟩ := h f (g.entries_addCall src dst stmt kind ▸ hf)
      exact ⟨m, hm, (g.addCall_grows src dst stmt kind).method hmethod⟩
  obtain ⟨m, hm, hmethod⟩ := hstart f (hret.entries ▸ hf)
  exact ⟨m, hm, hret.graph.method hmethod⟩

/-- The contexts that a method which shares what it returns has been laid out in. -/
theorem solveFrom_shared {f : FuncId} {m : MethodSig}
    (hm : (solveFrom p seed entries c fuel).2.builder.graph.methodOf? f = some m)
    (hf : ((Build.isSingleton p f).run.run (solveFrom p seed entries c fuel).2.builder).1 =
      .ok true) {cid : ContextId}
    (hcid : (cid, f) ∈ (solveFrom p seed entries c fuel).2.builder.built) :
    cid = Context.root ∨ EntersApart p entries c m ∧
      (solveFrom p seed entries c fuel).2.builder.contexts.read cid =
        some [some (.function f)] := by
  have hret := (solveFrom_actions p seed entries c fuel).extends
  have hacc := solveFrom_accounted p seed entries c fuel
  have hsensitivity : (solveFrom p seed entries c fuel).2.builder.contexts.sensitivity =
    c.sensitivity := hret.contexts.sensitivity
  have hk : (solveFrom p seed entries c fuel).2.builder.contexts.k = c.kLimit := hret.contexts.k
  have hentry := fun h => solveFrom_entries p seed entries c fuel (f := f) h
  generalize (solveFrom p seed entries c fuel).2.builder = b at *
  cases hacc.placed (Or.inr hcid) with
  | shared h => exact Or.inl h
  | apart h => exact absurd h (Builder.lookup_of_isSingleton hf)
  | entered h hread =>
    rw [hsensitivity, hk, Sensitivity.rtake_entryItems] at hread
    split at hread
    · rename_i hfunction
      refine Or.inr ⟨⟨hfunction.1, hfunction.2, ?_⟩, hread⟩
      rcases h with h | ⟨m', hm', hsets⟩
      · obtain ⟨m', hmem, hm'⟩ := hentry h
        rw [hm] at hm'
        cases hm'
        exact Or.inl hmem
      · rw [hm] at hm'
        cases hm'
        exact Or.inr hsets
    · -- What is entered starts with the empty string here, and only the empty context reads so.
      have hempty : b.contexts.read Context.root = some (([] : List ContextItem).map some) :=
        hacc.contexts.read_root
      exact Or.inl (hacc.contexts.read_injective hread hempty)

/-- Wherever a run has got to, a method that shares what it returns has been laid out in the empty
context, or in one of its own if it is entered apart. If it is not, what it allocates has at most
one node. -/
theorem singletons_shared {f : FuncId} {m : MethodSig}
    (hm : (solveFrom p seed entries c fuel).2.builder.graph.methodOf? f = some m)
    (hf : ((Build.isSingleton p f).run.run (solveFrom p seed entries c fuel).2.builder).1 =
      .ok true) :
    (∀ cid, (cid, f) ∈ (solveFrom p seed entries c fuel).2.builder.built →
      cid = Context.root ∨ EntersApart p entries c m ∧
        (solveFrom p seed entries c fuel).2.builder.contexts.read cid =
          some [some (.function f)]) ∧
    (¬EntersApart p entries c m → ∀ v, p.AllocatedIn m v →
      ((solveFrom p seed entries c fuel).2.pag.nodesOf v).length ≤ 1) := by
  have hacc := solveFrom_accounted p seed entries c fuel
  refine ⟨fun cid hcid => solveFrom_shared hm hf hcid, fun happ v hv => ?_⟩
  refine Builder.length_nodesOf_le hacc.unique Context.root fun n node hn he => ?_
  obtain ⟨f', m', hbuilt, hm', ha⟩ := hacc.origin hn he hv.toOnlyAssigned
  rw [hv.eq ha] at hm'
  rw [hacc.consistent.distinct hm' hm] at hbuilt
  exact (solveFrom_shared hm hf hbuilt).resolve_right fun h => happ h.1

namespace Sample

open Program

def pool : ClassSig := ⟨file, "Pool"⟩

def takeOne : MethodSig := ⟨pool, "take"⟩

/-- `a = Pool.take()` in `main`, where `take` is static: `o = new Pool; Pool.one = o; return o`. -/
def pooled : Program :=
  let (_, p) := (addFile {} file false).2.addClass file "Pool" none
  let d := (p.addStaticMethod pool "take").2.openBody takeOne
  let (o, d) := d.localVar "o" (.object pool)
  let (_, d) := d.assignNew o (.newObject pool)
  let (_, d) := d.storeStatic pool "one" o
  let d := (d.ret (some o)).2.close.openBody main
  let (a, d) := d.localVar "a" (.object pool)
  (d.call (some a) { kind := .named, method := takeOne, base := none, args := [] }).2.close

/-- The run that enters both methods. -/
def runPooled (c : Config) : Except Failure Unit × Analysis :=
  solveFrom pooled .direct [takeOne, main] c 20

def byFunction : Config := { (default : Config) with sensitivity := .function }

end Sample

open Sample

/-- By call sites `take` is laid out in the empty context only, although it is entered too, and its
object has one node. -/
theorem singletons_shared_pooled :
    (∀ cid, (cid, 1) ∈ (runPooled default).2.builder.built → cid = Context.root) ∧
      (Context.root, 1) ∈ (runPooled default).2.builder.built ∧
      ((runPooled default).2.pag.nodesOf 1).length ≤ 1 := by
  obtain ⟨hm, hf, hbuilt, halloc⟩ :
      (runPooled default).2.builder.graph.methodOf? 1 = some takeOne ∧
      ((Build.isSingleton pooled 1).run.run (runPooled default).2.builder).1 = .ok true ∧
      (Context.root, 1) ∈ (runPooled default).2.builder.built ∧
      pooled.AllocatedIn takeOne 1 := by
    decide +kernel
  have happ : ¬EntersApart pooled [takeOne, main] default takeOne := fun h => nomatch h.1
  obtain ⟨hcontexts, hnodes⟩ := singletons_shared (c := default) hm hf
  exact ⟨fun cid hcid => (hcontexts cid hcid).resolve_right fun h => happ h.1, hbuilt,
    hnodes happ 1 halloc⟩

/-- If contexts are made of functions, entering `take` gives it a context of its own. When it is
called it is laid out once more, and its object has two nodes. -/
theorem singletons_not_shared : byFunction.Valid ∧ (runPooled byFunction).1.isOk = true ∧
    (runPooled byFunction).2.builder.graph.methodOf? 1 = some takeOne ∧
    ((Build.isSingleton pooled 1).run.run (runPooled byFunction).2.builder).1 = .ok true ∧
    (∃ cid, cid ≠ Context.root ∧ (cid, 1) ∈ (runPooled byFunction).2.builder.built) ∧
    pooled.AllocatedIn takeOne 1 ∧ (runPooled byFunction).2.pag.nodesOf 1 = [0, 5] := by
  obtain ⟨hvalid, hok, hm, hf, hbuilt, halloc, hnodes⟩ : byFunction.Valid ∧
      (runPooled byFunction).1.isOk = true ∧
      (runPooled byFunction).2.builder.graph.methodOf? 1 = some takeOne ∧
      ((Build.isSingleton pooled 1).run.run (runPooled byFunction).2.builder).1 = .ok true ∧
      (1, 1) ∈ (runPooled byFunction).2.builder.built ∧
      pooled.AllocatedIn takeOne 1 ∧ (runPooled byFunction).2.pag.nodesOf 1 = [0, 5] := by
    decide +kernel
  exact ⟨hvalid, hok, hm, hf, ⟨1, by decide, hbuilt⟩, halloc, hnodes⟩

end Analysis

end PointsTo
