import Mathlib.Data.Set.Lattice
import Mathlib.Order.Bounds.Basic
import PointsTo.CallGraph.Resolver
import PointsTo.Proofs.CallGraph.Growth
import PointsTo.Proofs.Effects

/-!
# What resolving calls finds

Methods are reached, classes are allocated, and calls are made, and each of these leads to more of
the others. An *outcome* has methods, classes and calls, and it is *closed* if nothing that they
lead to is missing.

A resolver expands the methods in its queue one after the other. Two things hold throughout. It
finds nothing that a closed outcome does not have (`Within`). And a call of a method that was
expanded is recorded for every receiver class that counts, and parked for every other one
(`Settled`), wherever the class comes to count: a parked call is carried out at that moment. So
when the queue is empty, what was found is closed.
-/

namespace PointsTo

/-- A call of one method by a statement of another. -/
structure Call where
  caller : MethodSig
  callee : MethodSig
  stmt : StmtId
  kind : CallKind

namespace Program

/-- A statement in the body of the method makes the call. -/
def Invokes (p : Program) (m : MethodSig) (stmt : StmtId) (i : Invoke) : Prop :=
  ∃ decl, p.method? m = some decl ∧ stmt ∈ decl.stmts ∧ p.invokeOf? stmt = some i

/-- An assignment in the body of the method allocates an object of the class. -/
def Allocates (p : Program) (m : MethodSig) (c : ClassSig) : Prop :=
  ∃ left right, (left, right) ∈ p.assignments m ∧ p.value? right = some (.newObject c)

variable {p : Program} {m : MethodSig} {decl : MethodDecl} {stmt : StmtId}

theorem hasBody_of_mem_stmts (hm : p.method? m = some decl) (hstmt : stmt ∈ decl.stmts) :
    p.hasBody m = true := by
  unfold hasBody MethodDecl.hasBody
  rw [hm, Option.any_some]
  unfold MethodDecl.stmts at hstmt
  cases hbody : decl.body with
  | none =>
    rw [hbody] at hstmt
    cases hstmt
  | some body => rfl

theorem Invokes.hasBody {i : Invoke} (h : p.Invokes m stmt i) : p.hasBody m = true := by
  obtain ⟨decl, hdecl, hstmt, -⟩ := h
  exact hasBody_of_mem_stmts hdecl hstmt

theorem Allocates.hasBody {c : ClassSig} (h : p.Allocates m c) : p.hasBody m = true := by
  obtain ⟨left, right, hmem, -⟩ := h
  unfold assignments at hmem
  obtain ⟨stmt, hstmt, -⟩ := List.mem_filterMap.1 hmem
  cases hdecl : p.method? m with
  | none =>
    rw [hdecl] at hstmt
    cases hstmt
  | some decl =>
    rw [hdecl] at hstmt
    exact hasBody_of_mem_stmts hdecl hstmt

end Program

/-- What resolving calls can find. -/
@[ext]
structure Outcome where
  /-- The methods with a body that are reached. -/
  reached : Set MethodSig
  /-- The classes that receivers can have. -/
  allocated : Set ClassSig
  calls : Set Call

namespace Outcome

instance : PartialOrder Outcome where
  le o o' := o.reached ⊆ o'.reached ∧ o.allocated ⊆ o'.allocated ∧ o.calls ⊆ o'.calls
  le_refl _ := ⟨Set.Subset.rfl, Set.Subset.rfl, Set.Subset.rfl⟩
  le_trans _ _ _ h h' := ⟨h.1.trans h'.1, h.2.1.trans h'.2.1, h.2.2.trans h'.2.2⟩
  le_antisymm := by
    rintro ⟨reached, allocated, calls⟩ ⟨reached', allocated', calls'⟩ ⟨h₁, h₂, h₃⟩ ⟨h₁', h₂', h₃'⟩
    obtain rfl : reached = reached' := h₁.antisymm h₁'
    obtain rfl : allocated = allocated' := h₂.antisymm h₂'
    obtain rfl : calls = calls' := h₃.antisymm h₃'
    rfl

/-- Nothing is missing that follows from the entries. -/
structure Closed (p : Program) (entries : List MethodSig) (o : Outcome) : Prop where
  entry : ∀ m ∈ entries, p.hasBody m = true → m ∈ o.reached
  allocation : ∀ m ∈ o.reached, ∀ c, p.Allocates m c → c ∈ o.allocated
  /-- A call with one target is made. -/
  fixed : ∀ m ∈ o.reached, ∀ stmt i t, p.Invokes m stmt i → p.dispatch i = .fixed t →
    ⟨m, t, stmt, CallGraph.callKind i⟩ ∈ o.calls
  /-- A call on a receiver is made for every class that receivers can have. -/
  virtual : ∀ m ∈ o.reached, ∀ stmt i targets, p.Invokes m stmt i →
    p.dispatch i = .virtual targets → ∀ c t, (c, t) ∈ targets → c ∈ o.allocated →
      ⟨m, t, stmt, .indirect⟩ ∈ o.calls
  callee : ∀ call ∈ o.calls, p.hasBody call.callee = true → call.callee ∈ o.reached

theorem closed_congr {p : Program} {entries entries' : List MethodSig} {o : Outcome}
    (h : ∀ m, m ∈ entries' ↔ m ∈ entries) : o.Closed p entries' ↔ o.Closed p entries := by
  have himp : ∀ {l l' : List MethodSig}, (∀ m, m ∈ l' → m ∈ l) → o.Closed p l → o.Closed p l' :=
    fun hl ho => { ho with entry := fun m hm => ho.entry m (hl m hm) }
  exact ⟨himp fun m => (h m).2, himp fun m => (h m).1⟩

/-- The calls that methods of the outcome make on classes of the outcome. -/
inductive Makes (p : Program) (o : Outcome) : Call → Prop where
  | fixed {m stmt i t} : m ∈ o.reached → p.Invokes m stmt i → p.dispatch i = .fixed t →
    Makes p o ⟨m, t, stmt, CallGraph.callKind i⟩
  | virtual {m stmt i targets c t} : m ∈ o.reached → p.Invokes m stmt i →
    p.dispatch i = .virtual targets → (c, t) ∈ targets → c ∈ o.allocated →
    Makes p o ⟨m, t, stmt, .indirect⟩

/-- The least outcome has no other calls: without them it is closed, too. -/
theorem mem_calls_iff {p : Program} {entries : List MethodSig} {o : Outcome}
    (h : IsLeast {o | o.Closed p entries} o) {call : Call} : call ∈ o.calls ↔ o.Makes p call := by
  obtain ⟨ho, hleast⟩ := h
  constructor
  · intro hcall
    have hclosed : Closed p entries { o with calls := {call | o.Makes p call ∧ call ∈ o.calls} } :=
      { ho with
        fixed := fun m hm stmt i t hi ht => ⟨.fixed hm hi ht, ho.fixed m hm stmt i t hi ht⟩
        virtual := fun m hm stmt i targets hi ht c t hmem hc =>
          ⟨.virtual hm hi ht hmem hc, ho.virtual m hm stmt i targets hi ht c t hmem hc⟩
        callee := fun call hcall => ho.callee call hcall.2 }
    exact ((hleast hclosed).2.2 hcall).1
  · rintro (⟨hm, hi, ht⟩ | ⟨hm, hi, ht, hmem, hc⟩)
    · exact ho.fixed _ hm _ _ _ hi ht
    · exact ho.virtual _ hm _ _ _ hi ht _ _ hmem hc

/-- An outcome that has everything. -/
def all : Outcome :=
  ⟨Set.univ, Set.univ, Set.univ⟩

theorem closed_all (p : Program) (entries : List MethodSig) : all.Closed p entries :=
  ⟨by simp [all], by simp [all], by simp [all], by simp [all], by simp [all]⟩

end Outcome

namespace CallGraph

/-- The call is recorded between the nodes of its methods. -/
def Records (g : CallGraph) (call : Call) : Prop :=
  ∃ f f', g.methodOf? f = some call.caller ∧ g.methodOf? f' = some call.callee ∧
    g.Calls f f' call.kind call.stmt

theorem Records.mono {g g' : CallGraph} {call : Call} (h : g.Records call) (hg : g.Grows g') :
    g'.Records call := by
  obtain ⟨f, f', hf, hf', hcalls⟩ := h
  exact ⟨f, f', hg.method hf, hg.method hf', hg.calls hcalls⟩

end CallGraph

namespace Resolver

open CallGraph (Calls)

variable {p : Program} {entries : List MethodSig} {o : Outcome} {base : CallGraph}
  {r r' : Resolver}

/-! ## One expansion -/

/-- The method was expanded, or waits for it. -/
def Scheduled (r : Resolver) (f : FuncId) : Prop :=
  f ∈ r.queue ∨ f ∈ r.processed

/-- The call is recorded, and its callee is met. -/
def RecordsCall (r : Resolver) (caller callee : FuncId) (stmt : StmtId) (kind : CallKind) : Prop :=
  r.graph.Calls caller callee kind stmt ∧ r.Scheduled callee

/-- The outcome has the call, which joins two nodes. -/
def Allows (o : Outcome) (g : CallGraph) (caller callee : FuncId) (stmt : StmtId)
    (kind : CallKind) : Prop :=
  ∃ m t, g.methodOf? caller = some m ∧ g.methodOf? callee = some t ∧ ⟨m, t, stmt, kind⟩ ∈ o.calls

theorem Allows.mono {g g' : CallGraph} {caller callee : FuncId} {stmt : StmtId} {kind : CallKind}
    (h : Allows o g caller callee stmt kind) (hg : g.Grows g') :
    Allows o g' caller callee stmt kind := by
  obtain ⟨m, t, hm, ht, hmem⟩ := h
  exact ⟨m, t, hg.method hm, hg.method ht, hmem⟩

/-- What is met has nodes, and nothing is found that the outcome does not have. Calls that were
there from the start are left aside. -/
structure Within (p : Program) (o : Outcome) (base : CallGraph) (r : Resolver) : Prop where
  scheduled : ∀ {f}, r.Scheduled f → ∃ m, r.graph.methodOf? f = some m ∧
    (p.hasBody m = true → m ∈ o.reached)
  counts : ∀ {c}, r.counts c = true → c ∈ o.allocated
  parked : ∀ call ∈ r.parked, r.counts call.cls = false ∧
    (∃ t, r.graph.methodOf? call.callee = some t) ∧ (call.cls ∈ o.allocated →
      Allows o r.graph call.caller call.callee call.stmt .indirect)
  recorded : ∀ {f f' kind stmt}, r.graph.Calls f f' kind stmt →
    base.Calls f f' kind stmt ∨ Allows o r.graph f f' stmt kind

/-- The resolver later on. What is met stays met, calls stay recorded, and parked calls stay parked
or are taken. -/
structure Extends (r r' : Resolver) : Prop where
  graph : r.graph.Grows r'.graph
  scheduled : ∀ {f}, r.Scheduled f → r'.Scheduled f
  counts : ∀ {c}, r.counts c = true → r'.counts c = true
  parked : ∀ call ∈ r.parked, call ∈ r'.parked ∨
    r'.RecordsCall call.caller call.callee call.stmt .indirect

/-- A part of the expansion of a method. -/
structure ExpansionPart (p : Program) (o : Outcome) (base : CallGraph) (r r' : Resolver) :
    Prop extends Extends r r' where
  processed : r'.processed = r.processed
  /-- The callee of a new call is met. -/
  taken : ∀ {f f' kind stmt}, r'.graph.Calls f f' kind stmt →
    r.graph.Calls f f' kind stmt ∨ r'.Scheduled f'
  within : r.Within p o base → r'.Within p o base

theorem RecordsCall.mono {caller callee : FuncId} {stmt : StmtId} {kind : CallKind}
    (h : r.RecordsCall caller callee stmt kind) (hr : r.Extends r') :
    r'.RecordsCall caller callee stmt kind :=
  ⟨hr.graph.calls h.1, hr.scheduled h.2⟩

theorem Extends.trans {r₁ r₂ r₃ : Resolver} (h : r₁.Extends r₂) (h' : r₂.Extends r₃) :
    r₁.Extends r₃ where
  graph := h.graph.trans h'.graph
  scheduled := fun hf => h'.scheduled (h.scheduled hf)
  counts := fun hc => h'.counts (h.counts hc)
  parked := fun call hcall => by
    rcases h.parked call hcall with hcall | htakes
    · exact h'.parked call hcall
    · exact Or.inr (htakes.mono h')

instance (p : Program) (o : Outcome) (base : CallGraph) :
    IsPreorder Resolver (ExpansionPart p o base) where
  refl r := ⟨⟨.rfl, fun h => h, fun h => h, fun _ h => Or.inl h⟩, rfl, Or.inl, fun h => h⟩
  trans r₁ r₂ r₃ h h' := {
    toExtends := h.toExtends.trans h'.toExtends
    processed := h'.processed.trans h.processed
    taken := fun hcalls => by
      rcases h'.taken hcalls with hcalls | hmet
      · exact (h.taken hcalls).imp_right h'.scheduled
      · exact Or.inr hmet
    within := fun hw => h'.within (h.within hw) }

/-- A node is asked for. -/
theorem expansionPart_nodeFor (r : Resolver) (m : MethodSig) (missing : FuncKind) :
    ExpansionPart p o base r { r with graph := (r.graph.nodeFor p m missing).2 } := by
  have hg := r.graph.nodeFor_grows p m missing
  refine ⟨⟨hg, fun h => h, fun h => h, fun _ h => Or.inl h⟩, rfl,
    fun h => Or.inl (CallGraph.calls_nodeFor.1 h), fun hw => ⟨fun hf => ?_, hw.counts, ?_, ?_⟩⟩
  · obtain ⟨m', hm', hreached⟩ := hw.scheduled hf
    exact ⟨m', hg.method hm', hreached⟩
  · intro call hcall
    obtain ⟨hcounts, ⟨t, ht⟩, hallows⟩ := hw.parked call hcall
    exact ⟨hcounts, ⟨t, hg.method ht⟩, fun hc => (hallows hc).mono hg⟩
  · intro f f' kind stmt hcalls
    exact (hw.recorded (CallGraph.calls_nodeFor.1 hcalls)).imp_right fun h => h.mono hg

theorem met_push (r : Resolver) (f : FuncId) {f' : FuncId} :
    (r.push f).Scheduled f' ↔ r.Scheduled f' ∨ f' = f := by
  unfold push Scheduled
  split
  · rename_i hf
    rw [List.contains_iff_mem] at hf
    refine ⟨Or.inl, ?_⟩
    rintro (h | rfl)
    · exact h
    · exact Or.inr hf
  · simp only [List.mem_append, List.mem_singleton]
    tauto

/-- A call is recorded, and its callee is queued. -/
theorem expansionPart_connect (ho : o.Closed p entries) (r : Resolver) {caller callee : FuncId}
    {stmt : StmtId} {kind : CallKind} (h : Allows o r.graph caller callee stmt kind) :
    ExpansionPart p o base r (r.connect caller callee stmt kind) ∧
      (r.connect caller callee stmt kind).RecordsCall caller callee stmt kind := by
  have hg := r.graph.addCall_grows caller callee stmt kind
  have hgraph : (r.connect caller callee stmt kind).graph =
      (r.graph.addCall caller callee stmt kind).2 := graph_push ..
  have hmet : ∀ {f}, (r.connect caller callee stmt kind).Scheduled f ↔ r.Scheduled f ∨ f = callee :=
    met_push ..
  have hsame : (r.connect caller callee stmt kind).precision = r.precision ∧
      (r.connect caller callee stmt kind).processed = r.processed ∧
      (r.connect caller callee stmt kind).parked = r.parked ∧
      (r.connect caller callee stmt kind).instantiated = r.instantiated := by
    unfold connect push
    split <;> exact ⟨rfl, rfl, rfl, rfl⟩
  obtain ⟨hprecision, hprocessed, hparked, hinst⟩ := hsame
  have hcounts : ∀ c, (r.connect caller callee stmt kind).counts c = r.counts c := by
    intro c
    unfold counts
    rw [hprecision, hinst]
  refine ⟨⟨⟨hgraph ▸ hg, fun hf => hmet.2 (Or.inl hf), fun hc => by rwa [hcounts],
    fun call hcall => Or.inl (hparked ▸ hcall)⟩, hprocessed, ?_, fun hw => ?_⟩, ?_⟩
  · intro f f' kind' stmt' hcalls
    rw [hgraph] at hcalls
    rcases (CallGraph.calls_addCall_iff ..).1 hcalls with hcalls | ⟨-, rfl, -⟩
    · exact Or.inl hcalls
    · exact Or.inr (hmet.2 (Or.inr rfl))
  · refine ⟨fun {f} hf => ?_, fun hc => hw.counts (by rwa [hcounts] at hc), ?_, ?_⟩
    · rw [hgraph]
      rcases hmet.1 hf with hf | rfl
      · obtain ⟨m, hm, hreached⟩ := hw.scheduled hf
        exact ⟨m, hg.method hm, hreached⟩
      · obtain ⟨m, t, -, ht, hmem⟩ := h
        exact ⟨t, hg.method ht, ho.callee _ hmem⟩
    · intro call hcall
      rw [hparked] at hcall
      obtain ⟨hno, ⟨t, ht⟩, hallows⟩ := hw.parked call hcall
      rw [hgraph, hcounts]
      exact ⟨hno, ⟨t, hg.method ht⟩, fun hc => (hallows hc).mono hg⟩
    · intro f f' kind' stmt' hcalls
      rw [hgraph] at hcalls ⊢
      rcases (CallGraph.calls_addCall_iff ..).1 hcalls with hcalls | ⟨rfl, rfl, rfl, rfl⟩
      · exact (hw.recorded hcalls).imp_right fun h => h.mono hg
      · exact Or.inr (h.mono hg)
  · exact ⟨hgraph ▸ r.graph.calls_addCall caller callee stmt kind, hmet.2 (Or.inr rfl)⟩

/-- A call is parked for a class that does not count. -/
theorem expansionPart_park (r : Resolver) (call : ParkedCall) (hno : r.counts call.cls = false)
    (hcallee : ∃ t, r.graph.methodOf? call.callee = some t)
    (hallows : call.cls ∈ o.allocated →
      Allows o r.graph call.caller call.callee call.stmt .indirect) :
    ExpansionPart p o base r { r with parked := r.parked ++ [call] } := by
  refine ⟨⟨.rfl, fun h => h, fun h => h, fun _ h => Or.inl (List.mem_append_left _ h)⟩, rfl, Or.inl,
    fun hw => ⟨hw.scheduled, hw.counts, fun other hother => ?_, hw.recorded⟩⟩
  rcases List.mem_append.1 hother with hother | hother
  · exact hw.parked other hother
  · rw [List.mem_singleton] at hother
    subst hother
    exact ⟨hno, hcallee, hallows⟩

/-! ## Allocated classes -/

theorem partition_due (r : Resolver) (c : ClassSig) :
    r.parked.partition (fun call => call.cls == c) =
      (r.parked.filter fun call => call.cls == c,
        r.parked.filter fun call => !(call.cls == c)) := by
  rw [List.partition_eq_filter_filter]
  rfl

/-- A class that is allocated counts from then on, and the calls that were parked for it are
taken. -/
theorem expansionPart_instantiate (ho : o.Closed p entries) (hw : r.Within p o base) {c : ClassSig}
    (hc : c ∈ o.allocated) :
    ExpansionPart p o base r (r.instantiate c) ∧ (r.instantiate c).counts c = true := by
  unfold instantiate
  split
  · rename_i hcontains
    exact ⟨refl_of (ExpansionPart p o base) r, by unfold counts; rw [hcontains, Bool.or_true]⟩
  rw [partition_due]
  dsimp only
  let r₁ : Resolver := { r with
    instantiated := c :: r.instantiated
    parked := r.parked.filter fun call => !(call.cls == c) }
  have hcounts : ∀ {c'}, r₁.counts c' = true ↔ r.counts c' = true ∨ c' = c := by
    intro c'
    simp only [r₁, counts, List.contains_cons, Bool.or_eq_true, beq_iff_eq]
    tauto
  have hw₁ : r₁.Within p o base := by
    refine ⟨hw.scheduled, fun h => ?_, fun call hcall => ?_, hw.recorded⟩
    · rcases hcounts.1 h with h | rfl
      · exact hw.counts h
      · exact hc
    · obtain ⟨hcall, hne⟩ := List.mem_filter.1 hcall
      obtain ⟨hno, hrest⟩ := hw.parked call hcall
      refine ⟨Bool.eq_false_iff.2 fun h => ?_, hrest⟩
      rcases hcounts.1 h with h | h
      · rw [hno] at h
        cases h
      · simp [h] at hne
  have hloop :
    ExpansionPart p o base r₁ _ ∧ ∀ call ∈ r.parked.filter (fun call => call.cls == c), _ :=
    foldl_spec (P := fun call r' => r'.RecordsCall call.caller call.callee call.stmt .indirect)
      (fun _ _ _ h htakes => htakes.mono h.toExtends) fun call hcall r₂ h₂ => by
        obtain ⟨hcall, hcls⟩ := List.mem_filter.1 hcall
        rw [beq_iff_eq] at hcls
        obtain ⟨-, -, hallows⟩ := hw.parked call hcall
        exact expansionPart_connect ho r₂ ((hallows (hcls ▸ hc)).mono h₂.graph)
  obtain ⟨h, hdue⟩ := hloop
  refine ⟨⟨⟨h.graph, h.scheduled, fun hc' => h.counts (hcounts.2 (Or.inl hc')),
    fun call hcall => ?_⟩, h.processed, h.taken, fun _ => h.within hw₁⟩,
    h.counts (hcounts.2 (Or.inr rfl))⟩
  by_cases hcls : call.cls = c
  · exact Or.inr (hdue call (List.mem_filter.2 ⟨hcall, by simpa using hcls⟩))
  · exact h.parked call (List.mem_filter.2 ⟨hcall, by simpa using hcls⟩)

/-- The classes that the statements of a method allocate. -/
theorem mem_allocated {m : MethodSig} {decl : MethodDecl} (hm : p.method? m = some decl)
    {c : ClassSig} : c ∈ decl.stmts.filterMap (allocated? p) ↔ p.Allocates m c := by
  unfold Program.Allocates Program.assignments
  rw [hm]
  simp only [Option.map_some, Option.getD_some, List.mem_filterMap]
  constructor
  · rintro ⟨stmt, hstmt, hc⟩
    unfold allocated? at hc
    split at hc
    · rename_i left right hkind
      refine ⟨left, right, ⟨stmt, hstmt, by rw [hkind]⟩, ?_⟩
      split at hc
      · rename_i c' hvalue
        cases hc
        exact hvalue
      · cases hc
    · cases hc
  · rintro ⟨left, right, ⟨stmt, hstmt, heq⟩, hvalue⟩
    refine ⟨stmt, hstmt, ?_⟩
    split at heq
    · rename_i left' right' hkind
      cases heq
      unfold allocated?
      rw [hkind]
      dsimp only
      rw [hvalue]
    · cases heq

theorem expansionPart_enter (ho : o.Closed p entries) (hw : r.Within p o base)
    {f : FuncId} {m : MethodSig} (hm : r.graph.methodOf? f = some m) (hreached : m ∈ o.reached) :
    ExpansionPart p o base r (r.enter p f) ∧ ∀ c, p.Allocates m c →
    (r.enter p f).counts c = true := by
  unfold enter
  cases hprecision : r.precision with
  | hierarchy => exact ⟨refl_of (ExpansionPart p o base) r, fun c _ => by simp [counts, hprecision]⟩
  | rapidTypes =>
    dsimp only
    rw [hm, Option.bind_some]
    cases hdecl : p.method? m with
    | none =>
      refine ⟨refl_of (ExpansionPart p o base) r, fun c hc => ?_⟩
      have hbody := hc.hasBody
      simp [Program.hasBody, hdecl] at hbody
    | some decl =>
      have hloop : ExpansionPart p o base r _ ∧ ∀ c ∈ decl.stmts.filterMap (allocated? p), _ :=
        foldl_spec (P := fun c r' => r'.counts c = true) (fun _ _ _ h hc => h.counts hc)
          fun c hc r₁ h₁ => by
            have hc' := ho.allocation m hreached c ((mem_allocated hdecl).1 hc)
            exact expansionPart_instantiate ho (h₁.within hw) hc'
      exact ⟨hloop.1, fun c hc => hloop.2 c ((mem_allocated hdecl).2 hc)⟩

/-! ## Calls -/

/-- The call was followed. Its one target is called, and so is the target for every class of the
receiver, unless the call is parked for that class. -/
structure Settled (p : Program) (r : Resolver) (caller : FuncId) (stmt : StmtId) (i : Invoke) :
    Prop where
  fixed : ∀ {t}, p.dispatch i = .fixed t →
    ∃ callee, r.graph.methodOf? callee = some t ∧
      r.RecordsCall caller callee stmt (CallGraph.callKind i)
  virtual : ∀ {targets}, p.dispatch i = .virtual targets → ∀ {c t}, (c, t) ∈ targets →
    ∃ callee, r.graph.methodOf? callee = some t ∧
      (r.RecordsCall caller callee stmt .indirect ∨ ⟨c, caller, stmt, callee⟩ ∈ r.parked)

theorem Settled.mono {caller : FuncId} {stmt : StmtId} {i : Invoke}
    (h : r.Settled p caller stmt i) (hr : r.Extends r') : r'.Settled p caller stmt i where
  fixed ht := by
    obtain ⟨callee, hcallee, htakes⟩ := h.fixed ht
    exact ⟨callee, hr.graph.method hcallee, htakes.mono hr⟩
  virtual htargets c t hmem := by
    obtain ⟨callee, hcallee, htakes | hparked⟩ := h.virtual htargets hmem
    · exact ⟨callee, hr.graph.method hcallee, Or.inl (htakes.mono hr)⟩
    · exact ⟨callee, hr.graph.method hcallee, (hr.parked _ hparked).symm⟩

/-- Callees are gathered for a call on a receiver. -/
structure CalleesGathered (p : Program) (o : Outcome) (base : CallGraph)
    (caller : FuncId) (stmt : StmtId) (acc acc' : List FuncId × Resolver) : Prop where
  expansionPart : ExpansionPart p o base acc.2 acc'.2
  kept : acc.1 ⊆ acc'.1
  allowed : ∀ callee ∈ acc'.1, callee ∈ acc.1 ∨ Allows o acc'.2.graph caller callee stmt .indirect

instance (p : Program) (o : Outcome) (base : CallGraph) (caller : FuncId) (stmt : StmtId) :
    IsPreorder (List FuncId × Resolver) (CalleesGathered p o base caller stmt) where
  refl acc := ⟨refl_of (ExpansionPart p o base) acc.2, fun _ h => h, fun _ h => Or.inl h⟩
  trans _ _ _ h h' := {
    expansionPart := trans_of (ExpansionPart p o base) h.expansionPart h'.expansionPart
    kept := fun _ hf => h'.kept (h.kept hf)
    allowed := fun callee hcallee => by
      rcases h'.allowed callee hcallee with hcallee | hallows
      · exact (h.allowed callee hcallee).imp_right fun hallows =>
          hallows.mono h'.expansionPart.graph
      · exact Or.inr hallows }

/-- The callee for a class is among those gathered, or the call is parked or taken for it. -/
def Gathered (caller : FuncId) (stmt : StmtId) (t : ClassSig × MethodSig)
    (acc : List FuncId × Resolver) : Prop :=
  ∃ callee, acc.2.graph.methodOf? callee = some t.2 ∧ (callee ∈ acc.1 ∨
    acc.2.RecordsCall caller callee stmt .indirect ∨ ⟨t.1, caller, stmt, callee⟩ ∈ acc.2.parked)

theorem Gathered.mono {caller : FuncId} {stmt : StmtId} {t : ClassSig × MethodSig}
    {acc acc' : List FuncId × Resolver} (h : Gathered caller stmt t acc)
    (hacc : CalleesGathered p o base caller stmt acc acc') : Gathered caller stmt t acc' := by
  obtain ⟨callee, hcallee, hmem⟩ := h
  refine ⟨callee, hacc.expansionPart.graph.method hcallee, ?_⟩
  rcases hmem with hmem | htakes | hparked
  · exact Or.inl (hacc.kept hmem)
  · exact Or.inr (Or.inl (htakes.mono hacc.expansionPart.toExtends))
  · exact Or.inr (hacc.expansionPart.parked _ hparked).symm

theorem gathers_target {caller : FuncId} {m : MethodSig} {stmt : StmtId} {t : ClassSig × MethodSig}
    {acc : List FuncId × Resolver} (hw : acc.2.Within p o base)
    (hm : acc.2.graph.methodOf? caller = some m)
    (hcall : t.1 ∈ o.allocated → ⟨m, t.2, stmt, .indirect⟩ ∈ o.calls) :
    CalleesGathered p o base caller stmt acc (target p caller stmt acc t) ∧
      Gathered caller stmt t (target p caller stmt acc t) := by
  obtain ⟨callees, r⟩ := acc
  have hnode : ExpansionPart p o base r _ := expansionPart_nodeFor r t.2 .virtual
  have hcallee := r.graph.methodOf?_nodeFor p t.2 .virtual
  have hallows : t.1 ∈ o.allocated → Allows o (r.graph.nodeFor p t.2 .virtual).2 caller
      (r.graph.nodeFor p t.2 .virtual).1 stmt .indirect :=
    fun hc => ⟨m, t.2, hnode.graph.method hm, hcallee, hcall hc⟩
  unfold target
  dsimp only
  split
  · rename_i hcounts
    have hadded : ∀ f, f ∈ (if callees.contains (r.graph.nodeFor p t.2 .virtual).1 = true then
        callees else callees ++ [(r.graph.nodeFor p t.2 .virtual).1]) ↔
        f ∈ callees ∨ f = (r.graph.nodeFor p t.2 .virtual).1 := by
      intro f
      split
      · rename_i hmem
        rw [List.contains_iff_mem] at hmem
        refine ⟨Or.inl, ?_⟩
        rintro (h | rfl)
        · exact h
        · exact hmem
      · rw [List.mem_append, List.mem_singleton]
    refine ⟨⟨hnode, fun f hf => (hadded f).2 (Or.inl hf), fun f hf => ?_⟩,
      _, hcallee, Or.inl ((hadded _).2 (Or.inr rfl))⟩
    rcases (hadded f).1 hf with hf | rfl
    · exact Or.inl hf
    · exact Or.inr (hallows (hw.counts hcounts))
  · rename_i hcounts
    have hpark : ExpansionPart p o base _ _ := expansionPart_park _ ⟨t.1, caller, stmt, _⟩
      (Bool.eq_false_iff.2 hcounts) ⟨t.2, hcallee⟩ hallows
    exact ⟨⟨trans_of (ExpansionPart p o base) hnode hpark, fun _ h => h, fun _ h => Or.inl h⟩,
      _, hcallee, Or.inr (Or.inr (by simp))⟩

/-- A call that has several targets is a call on a receiver. -/
theorem callKind_of_virtual {i : Invoke} {targets : List (ClassSig × MethodSig)}
    (h : p.dispatch i = .virtual targets) : CallGraph.callKind i = .indirect := by
  unfold CallGraph.callKind
  unfold Program.dispatch at h
  split
  · rename_i hkind
    rw [hkind] at h
    cases h
  · rfl
  · rfl

/-- The callees of a call were looked up. The one target is among them, and so is the target for
every class of the receiver, unless the call is parked or taken for that class. -/
structure CalleesFound (p : Program) (o : Outcome) (base : CallGraph) (r : Resolver)
    (caller : FuncId) (stmt : StmtId) (i : Invoke) (found : List FuncId × Resolver) : Prop where
  expansionPart : ExpansionPart p o base r found.2
  allowed : ∀ callee ∈ found.1,
    Allows o found.2.graph caller callee stmt (CallGraph.callKind i)
  fixed : ∀ {t}, p.dispatch i = .fixed t →
    ∃ callee ∈ found.1, found.2.graph.methodOf? callee = some t
  virtual : ∀ {targets}, p.dispatch i = .virtual targets → ∀ t ∈ targets,
    Gathered caller stmt t found

theorem resolve_finds (ho : o.Closed p entries) (hw : r.Within p o base) {f : FuncId}
    {m : MethodSig} (hm : r.graph.methodOf? f = some m) (hreached : m ∈ o.reached) {stmt : StmtId}
    {i : Invoke} (hinvokes : p.Invokes m stmt i) :
    CalleesFound p o base r f stmt i (r.resolve p f stmt) := by
  obtain ⟨-, -, -, hi⟩ := id hinvokes
  unfold resolve
  rw [hi]
  dsimp only
  cases hdispatch : p.dispatch i with
  | fixed t =>
    have hnode : ExpansionPart p o base r _ :=
      expansionPart_nodeFor r t (if i.kind = .named then .blank else .virtual)
    have hcallee := r.graph.methodOf?_nodeFor p t (if i.kind = .named then .blank else .virtual)
    refine ⟨hnode, fun callee hmem => ?_, fun ht => ?_, fun htargets => ?_⟩
    · cases List.mem_singleton.1 hmem
      exact ⟨m, t, hnode.graph.method hm, hcallee,
        ho.fixed m hreached stmt i t hinvokes hdispatch⟩
    · rw [hdispatch] at ht
      cases ht
      exact ⟨_, List.mem_singleton_self _, hcallee⟩
    · rw [hdispatch] at htargets
      cases htargets
  | virtual targets =>
    have hgather : CalleesGathered p o base f stmt ([], r) _ ∧ ∀ t ∈ targets, _ :=
      foldl_spec (P := Gathered f stmt) (fun _ _ _ h hp => hp.mono h) fun t ht acc h =>
        gathers_target (h.expansionPart.within hw) (h.expansionPart.graph.method hm)
          (ho.virtual m hreached stmt i targets hinvokes hdispatch t.1 t.2 ht)
    obtain ⟨hgather, hgathered⟩ := hgather
    refine ⟨hgather.expansionPart, fun callee hmem => ?_, fun ht => ?_, fun htargets => ?_⟩
    · rw [callKind_of_virtual hdispatch]
      exact (hgather.allowed callee hmem).resolve_left List.not_mem_nil
    · rw [hdispatch] at ht
      cases ht
    · rw [hdispatch] at htargets
      cases htargets
      exact hgathered

/-- The call of a statement is followed. -/
theorem expansionPart_followStmt (ho : o.Closed p entries) (hw : r.Within p o base) {f : FuncId}
    {m : MethodSig} (hm : r.graph.methodOf? f = some m) (hreached : m ∈ o.reached)
    {decl : MethodDecl} (hdecl : p.method? m = some decl) {stmt : StmtId}
    (hstmt : stmt ∈ decl.stmts) :
    ExpansionPart p o base r (r.followStmt p f stmt) ∧
      ∀ {i}, p.invokeOf? stmt = some i → (r.followStmt p f stmt).Settled p f stmt i := by
  unfold followStmt
  cases hi : p.invokeOf? stmt with
  | none => exact ⟨refl_of (ExpansionPart p o base) r, fun h => nomatch h⟩
  | some i =>
    have hfinds := resolve_finds ho hw hm hreached ⟨decl, hdecl, hstmt, hi⟩
    dsimp only
    generalize r.resolve p f stmt = found at hfinds ⊢
    obtain ⟨callees, r₁⟩ := found
    have hloop : ExpansionPart p o base r₁ _ ∧ ∀ callee ∈ callees, _ :=
      foldl_spec (P := fun callee r' => r'.RecordsCall f callee stmt (CallGraph.callKind i))
        (fun _ _ _ h htakes => htakes.mono h.toExtends) fun callee hcallee r₂ h₂ =>
          expansionPart_connect ho r₂ ((hfinds.allowed callee hcallee).mono h₂.graph)
    obtain ⟨hconnect, htaken⟩ := hloop
    refine ⟨trans_of (ExpansionPart p o base) hfinds.expansionPart hconnect, ?_⟩
    rintro _ ⟨⟩
    refine ⟨fun {t} ht => ?_, fun {targets} htargets {c t} hmem => ?_⟩
    · obtain ⟨callee, hcallee, hmethod⟩ := hfinds.fixed ht
      exact ⟨callee, hconnect.graph.method hmethod, htaken callee hcallee⟩
    · obtain ⟨callee, hmethod, hfound⟩ := hfinds.virtual htargets (c, t) hmem
      refine ⟨callee, hconnect.graph.method hmethod, ?_⟩
      rcases hfound with hfound | htakes | hparked
      · exact Or.inl (callKind_of_virtual htargets ▸ htaken callee hfound)
      · exact Or.inl (htakes.mono hconnect.toExtends)
      · exact (hconnect.parked _ hparked).symm

/-! ## Expanding methods -/

/-- What the body of the method allocates counts, and its calls were followed. -/
def Expanded (p : Program) (r : Resolver) (f : FuncId) : Prop :=
  ∃ m, r.graph.methodOf? f = some m ∧ (∀ c, p.Allocates m c → r.counts c = true) ∧
    ∀ {stmt i}, p.Invokes m stmt i → r.Settled p f stmt i

theorem Expanded.mono {f : FuncId} (h : r.Expanded p f) (hr : r.Extends r') : r'.Expanded p f := by
  obtain ⟨m, hm, hallocates, hsettled⟩ := h
  exact ⟨m, hr.graph.method hm, fun c hc => hr.counts (hallocates c hc),
    fun hi => (hsettled hi).mono hr⟩

/-- The state between two expansions. -/
structure Invariant (p : Program) (o : Outcome) (base : CallGraph) (r : Resolver) : Prop where
  within : r.Within p o base
  expanded : ∀ f ∈ r.processed, r.Expanded p f
  grows : base.Grows r.graph
  taken : ∀ {f f' kind stmt}, r.graph.Calls f f' kind stmt →
    base.Calls f f' kind stmt ∨ r.Scheduled f'

/-- The node is that of a method with a body. -/
def Bodied (p : Program) (r : Resolver) (f : FuncId) : Prop :=
  ∃ m, r.graph.methodOf? f = some m ∧ p.hasBody m = true

/-- What expanding the first method of the queue does. -/
structure MethodExpanded (p : Program) (r : Resolver) (f : FuncId)
    (expanded : Bool) (r' : Resolver) : Prop where
  extended : r.Extends r'
  processed : ∀ {f'}, f' ∈ r'.processed ↔ f' = f ∨ f' ∈ r.processed
  expanded : expanded = true ↔ f ∉ r.processed ∧ r.Bodied p f

/-- A method that was expanded before leaves the queue. -/
theorem Invariant.skip (h : r.Invariant p o base) {f : FuncId} {queue : List FuncId}
    (hq : r.queue = f :: queue) (hf : f ∈ r.processed) :
    MethodExpanded p r f false { r with queue } ∧ Invariant p o base { r with queue } := by
  have hmet : ∀ {f'}, r.Scheduled f' ↔ Scheduled { r with queue } f' := by
    intro f'
    unfold Scheduled
    rw [hq, List.mem_cons]
    refine ⟨?_, fun h => h.imp_left Or.inr⟩
    rintro ((rfl | h) | h)
    · exact Or.inr hf
    · exact Or.inl h
    · exact Or.inr h
  have hlater : r.Extends { r with queue } := ⟨.rfl, hmet.1, fun h => h, fun _ h => Or.inl h⟩
  constructor
  · exact {
      extended := hlater
      processed := ⟨Or.inr, fun h => h.elim (fun h => h ▸ hf) id⟩
      expanded := ⟨fun h => absurd h Bool.false_ne_true, fun h => absurd hf h.1⟩ }
  · exact {
      within := ⟨fun hf' => h.within.scheduled (hmet.2 hf'), h.within.counts, h.within.parked,
        h.within.recorded⟩
      expanded := fun f' hf' => (h.expanded f' hf').mono hlater
      grows := h.grows
      taken := fun hc => (h.taken hc).imp_right hmet.1 }

/-- The first method of the queue is taken up. It moves to what was expanded, so nothing else is
met. -/
theorem Invariant.takeUp (h : r.Invariant p o base) {f : FuncId} {queue : List FuncId}
    (hq : r.queue = f :: queue) :
    r.Extends { r with queue, processed := f :: r.processed } ∧
      Within p o base { r with queue, processed := f :: r.processed } := by
  have hmet :
    ∀ {f'}, Scheduled { r with queue, processed := f :: r.processed } f' ↔ r.Scheduled f' := by
    intro f'
    unfold Scheduled
    rw [hq]
    simp only [List.mem_cons]
    tauto
  exact ⟨⟨.rfl, hmet.2, fun h => h, fun _ h => Or.inl h⟩,
    fun hf' => h.within.scheduled (hmet.1 hf'), h.within.counts, h.within.parked, h.within.recorded⟩

/-- The first method of the queue was taken up, and what its body has was done. -/
theorem Invariant.finish (h : r.Invariant p o base) {f : FuncId} {queue : List FuncId}
    (hq : r.queue = f :: queue) (hf : f ∉ r.processed) {m : MethodSig}
    (hm : r.graph.methodOf? f = some m) {expanded : Bool}
    (hexpanded : expanded = true ↔ p.hasBody m = true)
    (hgoes : ExpansionPart p o base { r with queue, processed := f :: r.processed } r')
    (hnow : r'.Expanded p f) : MethodExpanded p r f expanded r' ∧ r'.Invariant p o base := by
  obtain ⟨hlater, hw⟩ := h.takeUp hq
  have hlater' := hlater.trans hgoes.toExtends
  have hbodied : r.Bodied p f ↔ p.hasBody m = true := by
    refine ⟨fun ⟨m', hm', hbody⟩ => ?_, fun hbody => ⟨m, hm, hbody⟩⟩
    rw [hm] at hm'
    cases hm'
    exact hbody
  have hprocessed : ∀ {f'}, f' ∈ r'.processed ↔ f' = f ∨ f' ∈ r.processed := by
    intro f'
    rw [hgoes.processed]
    exact List.mem_cons
  refine ⟨⟨hlater', hprocessed, ?_⟩, hgoes.within hw, fun f' hf' => ?_, h.grows.trans hgoes.graph,
    fun hc => ?_⟩
  · rw [hexpanded, hbodied]
    exact (and_iff_right hf).symm
  · rcases hprocessed.1 hf' with rfl | hf'
    · exact hnow
    · exact (h.expanded f' hf').mono hlater'
  · rcases hgoes.taken hc with hc | hc
    · exact (h.taken hc).imp_right hlater'.scheduled
    · exact Or.inr hc

/-- The body of a method is gone through. -/
theorem expansionPart_body (ho : o.Closed p entries) (hw : r.Within p o base)
    {f : FuncId} {m : MethodSig}
    (hm : r.graph.methodOf? f = some m) (hreached : m ∈ o.reached) {decl : MethodDecl}
    (hdecl : p.method? m = some decl) :
    ExpansionPart p o base r (decl.stmts.foldl (followStmt p f) (r.enter p f)) ∧
      Expanded p (decl.stmts.foldl (followStmt p f) (r.enter p f)) f := by
  obtain ⟨henter, hallocated⟩ := expansionPart_enter ho hw hm hreached
  have hloop : ExpansionPart p o base (r.enter p f) _ ∧ ∀ stmt ∈ decl.stmts, _ :=
    foldl_spec (P := fun stmt r' => ∀ {i}, p.invokeOf? stmt = some i → r'.Settled p f stmt i)
      (fun _ _ _ h hp _ hi => (hp hi).mono h.toExtends) fun stmt hstmt r₁ h₁ =>
        expansionPart_followStmt ho (h₁.within (henter.within hw))
          (h₁.graph.method (henter.graph.method hm)) hreached hdecl hstmt
  obtain ⟨hfollow, hsettled⟩ := hloop
  refine ⟨trans_of (ExpansionPart p o base) henter hfollow,
    m, hfollow.graph.method (henter.graph.method hm), fun c hc => hfollow.counts (hallocated c hc),
    fun {stmt i} hinvokes => ?_⟩
  obtain ⟨decl', hdecl', hstmt, hi⟩ := hinvokes
  rw [hdecl] at hdecl'
  cases hdecl'
  exact hsettled stmt hstmt hi

theorem expand_invariant (ho : o.Closed p entries) (h : r.Invariant p o base) {f : FuncId}
    {queue : List FuncId} (hq : r.queue = f :: queue) :
    MethodExpanded p r f (expand p { r with queue } f).1 (expand p { r with queue } f).2 ∧
      (expand p { r with queue } f).2.Invariant p o base := by
  obtain ⟨m, hm, hreached⟩ :=
    h.within.scheduled (f := f) (Or.inl (by rw [hq]; exact List.mem_cons_self))
  have hbody : (r.graph.methodOf? f).bind p.method? = p.method? m := by rw [hm, Option.bind_some]
  have hhas : p.hasBody m = ((p.method? m).bind MethodDecl.body).isSome := by
    unfold Program.hasBody MethodDecl.hasBody
    cases p.method? m <;> rfl
  unfold expand
  dsimp only
  rw [hbody]
  split
  · rename_i hf
    exact h.skip hq (List.contains_iff_mem.1 hf)
  · rename_i hf
    rw [List.contains_iff_mem] at hf
    split
    · rename_i hnone
      rw [hnone, Option.isSome_none] at hhas
      have hno : p.hasBody m ≠ true := by rw [hhas]; exact Bool.false_ne_true
      exact h.finish hq hf hm ⟨fun h => absurd h Bool.false_ne_true, fun h => absurd h hno⟩
        (refl_of (ExpansionPart p o base) _) ⟨m, hm, fun c hc => absurd hc.hasBody hno,
          fun hinvokes => absurd hinvokes.hasBody hno⟩
    · rename_i body hsome
      rw [hsome, Option.isSome_some] at hhas
      obtain ⟨decl, hdecl, hbody⟩ := Option.bind_eq_some_iff.1 hsome
      have hstmts : decl.stmts = body.stmts := by simp [MethodDecl.stmts, hbody]
      obtain ⟨hgoes, hnow⟩ := expansionPart_body ho (h.takeUp hq).2 hm (hreached hhas) hdecl
      rw [hstmts] at hgoes hnow
      exact h.finish hq hf hm ⟨fun _ => hhas, fun _ => rfl⟩ hgoes hnow

theorem Bodied.congr {f : FuncId} {m : MethodSig} (hm : r.graph.methodOf? f = some m)
    (hr : r.Extends r') : r'.Bodied p f ↔ r.Bodied p f := by
  unfold Bodied
  rw [hm, hr.graph.method hm]

/-- What taking methods from the queue does. Those that are listed are the ones with a body that
were expanded on the way. -/
structure QueueDrained (p : Program) (r : Resolver) (reached : List FuncId) (r' : Resolver) :
    Prop where
  extended : r.Extends r'
  processed : ∀ {f}, f ∈ r.processed → f ∈ r'.processed
  reached : ∀ {f}, f ∈ reached ↔ f ∈ r'.processed ∧ f ∉ r.processed ∧ r'.Bodied p f

theorem drain_invariant (ho : o.Closed p entries) (n : Nat) (h : r.Invariant p o base) :
    QueueDrained p r (r.drain p n).1 (r.drain p n).2 ∧ (r.drain p n).2.Invariant p o base := by
  have hnothing : ∀ r : Resolver, QueueDrained p r [] r := fun r =>
    ⟨⟨.rfl, fun h => h, fun h => h, fun _ h => Or.inl h⟩, fun h => h,
      ⟨fun h => absurd h List.not_mem_nil, fun h => absurd h.1 h.2.1⟩⟩
  induction n generalizing r with
  | zero => exact ⟨hnothing r, h⟩
  | succ n ih =>
    unfold drain
    split
    · exact ⟨hnothing r, h⟩
    · rename_i f queue hq
      obtain ⟨hexpands, hinv⟩ := expand_invariant ho h hq
      obtain ⟨hdrains, hdone⟩ := ih hinv
      dsimp only
      generalize expand p { r with queue } f = result at hexpands hinv hdrains hdone ⊢
      obtain ⟨expanded, r₁⟩ := result
      dsimp only at hexpands hinv hdrains hdone ⊢
      obtain ⟨m, hm, -⟩ := h.within.scheduled (f := f) (Or.inl (by rw [hq]; simp))
      have hlater := hexpands.extended.trans hdrains.extended
      have hadded : ∀ {f'}, f' ∈ (if expanded = true then f :: (r₁.drain p n).1 else
          (r₁.drain p n).1) ↔ expanded = true ∧ f' = f ∨ f' ∈ (r₁.drain p n).1 := by
        intro f'
        cases expanded <;> simp
      refine ⟨⟨hlater, fun hf' => hdrains.processed (hexpands.processed.2 (Or.inr hf')), ?_⟩, hdone⟩
      intro f'
      rw [hadded, hdrains.reached, hexpands.processed, hexpands.expanded]
      by_cases hf' : f' = f
      · subst hf'
        have hnow := hdrains.processed (hexpands.processed.2 (Or.inl rfl))
        rw [Bodied.congr hm hlater]
        tauto
      · tauto

end Resolver

end PointsTo
