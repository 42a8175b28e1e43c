import PointsTo.Analysis.Solve
import PointsTo.Proofs.Builder.Layout
import PointsTo.Proofs.Sets.Facts

/-!
# What an analysis can do

Like the builder, an analysis proceeds in steps of few kinds. Apart from what the builder does and
from scheduling, an edge is brought in, facts go along an edge (`Passes`), a copy is drawn between a
field and what an access reads or writes, or the fresh facts of a node are settled.

A fact is *derived* if there is an `address` edge for the object and a way from there along edges
that it passes (`Derives`). Steps only ever add derived facts, and only about objects, so this holds
in every state of every run (`Steps.grounded`), whether the run succeeds or not.
-/

namespace PointsTo

/-- The object may go from one node to another along an edge. -/
def Pag.Passes (p : Program) (g : Pag) (o src dst : NodeId) : Prop :=
  ⟨.copy, src, dst⟩ ∈ g.edges ∨ ⟨.interprocedural, src, dst⟩ ∈ g.edges ∨
    ⟨.this, src, dst⟩ ∈ g.edges ∧ Analysis.fitsThis p g dst o = true

/-- The object gets to a node, from where it is made along edges that it passes. -/
inductive Pag.Derives (p : Program) (g : Pag) (o : NodeId) : NodeId → Prop where
  | address {n : NodeId} (h : ⟨.address, o, n⟩ ∈ g.edges) : Derives p g o n
  | pass {m n : NodeId} (h : Derives p g o m) (edge : g.Passes p o m n) : Derives p g o n

namespace Analysis

/-- The node `f` is the field of an object at `n` which the access `r` through `n` reads or
writes. -/
structure Joins (a : Analysis) (n r f : NodeId) (key : FieldKey) (obj : NodeId) : Prop where
  access : a.pag.Accesses r n key
  fact : obj ∈ a.facts.all n
  object : a.pag.isObject obj = true
  field : a.pag.fieldNode? obj key = some f

/-- One step of a visit of the node `n`. -/
inductive VisitStep (p : Program) (n : NodeId) (a : Analysis) : Analysis → Prop where
  | pass (dst : NodeId) (objs : ObjSet)
      (passes : ∀ o ∈ objs, o ∈ a.facts.freshOf n ∧ a.pag.Passes p o n dst) :
    VisitStep p n a (a.pass objs dst)
  | field (obj : NodeId) (key : FieldKey) (cloneOf : Option NodeId) :
    VisitStep p n a { a with builder := ((Build.fieldNode obj key cloneOf).run a.builder).2 }
  | read {r f d obj : NodeId} {key : FieldKey} (joins : a.Joins n r f key obj)
      (load : ⟨.load, r, d⟩ ∈ a.pag.edges) :
    VisitStep p n a (a.addCopy f d)
  | write {r f s obj : NodeId} {key : FieldKey} (joins : a.Joins n r f key obj)
      (write : ⟨.write, s, r⟩ ∈ a.pag.edges) :
    VisitStep p n a (a.addCopy s f)

/-- One step of an analysis. -/
inductive Step (p : Program) (a : Analysis) : Analysis → Prop where
  | build {b : Builder} (h : Builder.LayoutStep p a.builder b) : Step p a { a with builder := b }
  /-- New edges and new waiting calls are taken from the builder. -/
  | take (newEdges : Array FlowEdge) (newSites : Array (NodeId × SiteRef))
      (edges : ∀ e ∈ newEdges, e ∈ a.builder.newEdges) :
    Step p a { a with builder := { a.builder with newEdges, newSites } }
  | seed {e : FlowEdge} (h : e ∈ a.pag.edges) : Step p a (a.seedEdge e)
  | visit (n : NodeId) {a' : Analysis} (h : VisitStep p n a a') : Step p a a'
  | settle (n : NodeId) : Step p a (a.settle n)
  | schedule (queue : List NodeId) (arrivals : Array (NodeId × List NodeId)) (stats : Stats) :
    Step p a { a with queue, arrivals, stats }

def VisitSteps (p : Program) (n : NodeId) : Analysis → Analysis → Prop :=
  Relation.ReflTransGen (VisitStep p n)

def Steps (p : Program) : Analysis → Analysis → Prop :=
  Relation.ReflTransGen (Step p)

instance (p : Program) (n : NodeId) : IsPreorder Analysis (VisitSteps p n) :=
  inferInstanceAs (IsPreorder Analysis (Relation.ReflTransGen (VisitStep p n)))

instance (p : Program) : IsPreorder Analysis (Steps p) :=
  inferInstanceAs (IsPreorder Analysis (Relation.ReflTransGen (Step p)))

theorem VisitSteps.steps {p : Program} {n : NodeId} {a a' : Analysis} (h : VisitSteps p n a a') :
    Steps p a a' := by
  induction h with
  | refl => exact refl_of (Steps p) a
  | tail _ hstep ih => exact ih.tail (.visit n hstep)

theorem Steps.of_step {p : Program} {a a' : Analysis} (h : Step p a a') : Steps p a a' :=
  .single h

/-- The builder is sound, and every fact is about an object and derived. -/
structure Grounded (p : Program) (a : Analysis) : Prop where
  sound : a.builder.Sound p
  object : ∀ {n o}, o ∈ a.facts.all n → a.pag.isObject o = true
  derived : ∀ {n o}, o ∈ a.facts.all n → a.pag.Derives p o n
  exposed : ∀ {n o}, o ∈ a.pag.ptsOf n → o ∈ a.facts.all n

/-! ## Receiving facts -/

/-- Nodes may have got fresh facts, and are queued if so. Nothing was propagated. -/
structure AddsFresh (a a' : Analysis) : Prop where
  propagated : ∀ m, a'.facts.propagatedOf m = a.facts.propagatedOf m
  kept : ∀ {m o}, o ∈ a.facts.freshOf m → o ∈ a'.facts.freshOf m
  queue : ∀ {m}, m ∈ a.queue → m ∈ a'.queue
  queued : ∀ {m o}, o ∈ a'.facts.freshOf m → o ∈ a.facts.freshOf m ∨ m ∈ a'.queue
  arrivals : a'.arrivals = a.arrivals

namespace AddsFresh

theorem of_same {a a' : Analysis} (facts : a'.facts = a.facts) (queue : a'.queue = a.queue)
    (arrivals : a'.arrivals = a.arrivals) : a.AddsFresh a' where
  propagated _ := by rw [facts]
  kept ho := facts ▸ ho
  queue hm := queue ▸ hm
  queued ho := Or.inl (facts ▸ ho)
  arrivals := arrivals

theorem rfl {a : Analysis} : a.AddsFresh a :=
  of_same (.refl _) (.refl _) (.refl _)

theorem trans {a₁ a₂ a₃ : Analysis} (h : a₁.AddsFresh a₂) (h' : a₂.AddsFresh a₃) :
    a₁.AddsFresh a₃ where
  propagated m := (h'.propagated m).trans (h.propagated m)
  kept ho := h'.kept (h.kept ho)
  queue hm := h'.queue (h.queue hm)
  queued ho := by
    rcases h'.queued ho with ho | hm
    · exact (h.queued ho).imp_right h'.queue
    · exact Or.inr hm
  arrivals := h'.arrivals.trans h.arrivals

theorem all_kept {a a' : Analysis} (h : a.AddsFresh a') {m o : NodeId} (ho : o ∈ a.facts.all m) :
    o ∈ a'.facts.all m := by
  rw [DiffStore.mem_all] at ho ⊢
  rw [h.propagated]
  exact ho.imp_right h.kept

end AddsFresh

/-- The node `n` was brought the facts that satisfy `P`. -/
structure ReceivesFacts (a : Analysis) (n : NodeId) (P : NodeId → Prop) (a' : Analysis) :
    Prop extends AddsFresh a a' where
  new : ∀ {m o}, o ∈ a'.facts.freshOf m → o ∈ a.facts.freshOf m ∨ m = n ∧ P o
  known : ∀ {o}, P o → o ∈ a'.facts.all n

namespace ReceivesFacts

variable {a a' : Analysis} {n : NodeId} {P : NodeId → Prop}

theorem all_new (h : a.ReceivesFacts n P a') {m o : NodeId} (ho : o ∈ a'.facts.all m) :
    o ∈ a.facts.all m ∨ m = n ∧ P o := by
  rw [DiffStore.mem_all] at ho ⊢
  rw [h.propagated] at ho
  rcases ho with ho | ho
  · exact Or.inl (Or.inl ho)
  · exact (h.new ho).imp_left Or.inr

/-- Nothing is brought. -/
theorem rfl {a : Analysis} (hp : ∀ o, ¬P o) : a.ReceivesFacts n P a where
  toAddsFresh := .rfl
  new h := Or.inl h
  known h := absurd h (hp _)

/-- Only facts, queue and waiting calls are spoken of. -/
theorem congr {a₁ : Analysis} (h : a₁.ReceivesFacts n P a') (facts : a₁.facts = a.facts)
    (queue : a₁.queue = a.queue) (arrivals : a₁.arrivals = a.arrivals) :
    a.ReceivesFacts n P a' where
  propagated := facts ▸ h.propagated
  kept := facts ▸ h.kept
  new := facts ▸ h.new
  known := h.known
  queue := queue ▸ h.queue
  queued := facts ▸ h.queued
  arrivals := arrivals ▸ h.arrivals

end ReceivesFacts

theorem receive_receives {a : Analysis} {n : NodeId} {P : NodeId → Prop} {r : Bool × DiffStore}
    (h : a.facts.Gains n P r) : a.ReceivesFacts n P (a.receive n r) := by
  have facts : (a.receive n r).facts = r.2 := by
    unfold receive
    dsimp only
    split <;> rfl
  have queue : (a.receive n r).queue = if r.1 then a.queue ++ [n] else a.queue := by
    unfold receive
    dsimp only
    split <;> rfl
  exact {
    propagated := fun m => by rw [facts]; exact h.propagated m
    kept := fun {m o} ho => by rw [facts]; exact h.kept m o ho
    new := fun {m o} ho => by rw [facts] at ho; exact h.new m o ho
    known := fun {o} ho => by rw [facts]; exact h.known o ho
    queue := fun hm => by
      rw [queue]
      split
      · exact List.mem_append_left _ hm
      · exact hm
    queued := fun {m o} ho => by
      rw [facts] at ho
      rw [queue]
      split
      · rcases h.new m o ho with ho | ⟨rfl, -⟩
        · exact Or.inl ho
        · exact Or.inr (by simp)
      · rename_i hquiet
        exact Or.inl (h.quiet (by simpa using hquiet) m o ho)
    arrivals := by
      unfold receive
      dsimp only
      split <;> rfl }

@[simp] theorem builder_receive (a : Analysis) (n : NodeId) (r : Bool × DiffStore) :
    (a.receive n r).builder = a.builder := by
  unfold receive
  dsimp only
  split <;> rfl

@[simp] theorem pag_receive (a : Analysis) (n : NodeId) (r : Bool × DiffStore) :
    (a.receive n r).pag = a.pag := by
  simp [pag]

/-! ## What the operations do -/

section Operations

variable (a : Analysis) (n src dst : NodeId) (objs : ObjSet)

@[simp] theorem builder_pass : (a.pass objs dst).builder = a.builder :=
  builder_receive ..

@[simp] theorem pag_pass : (a.pass objs dst).pag = a.pag :=
  pag_receive ..

theorem pass_receives : a.ReceivesFacts dst (· ∈ objs) (a.pass objs dst) :=
  (receive_receives (a := a.countPropagation) (a.facts.addAll_gains dst objs)).congr rfl rfl rfl

@[simp] theorem builder_reseed : (a.reseed n).builder = a.builder := by
  unfold reseed
  dsimp only
  split <;> rfl

theorem reseed_receives : a.ReceivesFacts n (· ∈ a.facts.propagatedOf n) (a.reseed n) := by
  have h := a.facts.reseed_gains n
  unfold reseed
  dsimp only
  split
  · exact {
      propagated := h.propagated
      kept := h.kept _ _
      new := h.new _ _
      known := h.known _
      queue := fun hm => List.mem_append_left _ hm
      queued := fun {m o} ho => by
        rcases h.new m o ho with ho | ⟨rfl, -⟩
        · exact Or.inl ho
        · exact Or.inr (by simp [enqueue])
      arrivals := rfl }
  · rename_i hno
    exact {
      propagated := h.propagated
      kept := h.kept _ _
      new := h.new _ _
      known := h.known _
      queue := fun hm => hm
      queued := fun {m o} ho => by
        rcases h.new m o ho with ho' | ⟨rfl, -⟩
        · exact Or.inl ho'
        · exact absurd ho (DiffStore.not_mem_freshOf_of_hasFresh (by simpa using hno))
      arrivals := rfl }

theorem addCopy_eq : a.addCopy src dst =
    if (a.pag.addEdge .copy src dst).1 then
      ((a.setPag (a.pag.addEdge .copy src dst).2).countPropagation).receive dst
        (a.facts.addKnown dst src)
    else a :=
  rfl

theorem builder_addCopy : (a.addCopy src dst).builder =
    { a.builder with pag := (a.pag.addEdge .copy src dst).2 } := by
  rw [addCopy_eq]
  split
  · simp [countPropagation, setPag]
  · rename_i h
    rw [Pag.addEdge_of_not_new (by simpa using h)]
    rfl

@[simp] theorem pag_addCopy : (a.addCopy src dst).pag = (a.pag.addEdge .copy src dst).2 := by
  unfold pag
  rw [builder_addCopy]
  rfl

theorem addCopy_receives : a.ReceivesFacts dst
    (fun o => (a.pag.addEdge .copy src dst).1 = true ∧ o ∈ a.facts.all src)
    (a.addCopy src dst) := by
  rw [addCopy_eq]
  split
  · rename_i h
    simp only [h, true_and]
    exact (receive_receives (a := (a.setPag (a.pag.addEdge .copy src dst).2).countPropagation)
      (a.facts.addKnown_gains dst src)).congr rfl rfl rfl
  · rename_i h
    exact .rfl fun o ho => h ho.1

theorem seedEdge_receives (e : FlowEdge) : ∃ m P, a.ReceivesFacts m P (a.seedEdge e) ∧
    ∀ o, P o → o ∈ a.facts.propagatedOf m ∨ e = ⟨.address, o, m⟩ := by
  have offer : ∀ k, ∃ m P, a.ReceivesFacts m P (a.reseed k) ∧
      ∀ o, P o → o ∈ a.facts.propagatedOf m ∨ e = ⟨.address, o, m⟩ := fun k =>
    ⟨k, _, a.reseed_receives k, fun _ ho => Or.inl ho⟩
  have offerBase : ∀ base : Option NodeId, ∃ m P, a.ReceivesFacts m P ((base.map a.reseed).getD a) ∧
      ∀ o, P o → o ∈ a.facts.propagatedOf m ∨ e = ⟨.address, o, m⟩ := by
    intro base
    cases base with
    | some k => exact offer k
    | none => exact ⟨0, fun _ => False, .rfl fun _ ho => ho, fun _ ho => absurd ho id⟩
  obtain ⟨kind, src, dst⟩ := e
  cases kind with
  | address =>
    refine ⟨dst, _, receive_receives (a.facts.add_gains dst src), ?_⟩
    rintro o rfl
    exact Or.inr rfl
  | load => exact offerBase (a.refBase? src)
  | write => exact offerBase (a.refBase? dst)
  | copy | this | interprocedural => exact offer src

@[simp] theorem builder_seedEdge (e : FlowEdge) : (a.seedEdge e).builder = a.builder := by
  unfold seedEdge
  split
  · exact builder_receive ..
  · cases a.refBase? e.src <;> simp
  · cases a.refBase? e.dst <;> simp
  · exact builder_reseed ..
  · exact builder_reseed ..
  · exact builder_reseed ..

end Operations

theorem facts_settle (a : Analysis) (n : NodeId) : (a.settle n).facts = a.facts.flush n := by
  unfold settle
  dsimp only
  split <;> rfl

theorem queue_settle (a : Analysis) (n : NodeId) : (a.settle n).queue = a.queue := by
  unfold settle
  dsimp only
  split <;> rfl

theorem builder_settle (a : Analysis) (n : NodeId) :
    (a.settle n).builder = { a.builder with pag := a.pag.addPts n (a.facts.freshOf n) } := by
  unfold settle
  dsimp only
  split <;> rfl

theorem pag_settle (a : Analysis) (n : NodeId) :
    (a.settle n).pag = a.pag.addPts n (a.facts.freshOf n) := by
  unfold pag
  rw [builder_settle]
  rfl

/-! ## Derivations stay -/

/-- Whether an object fits as receiver does not change. -/
theorem fitsThis_congr (p : Program) {g g' : Pag} (hg : g.Extends g') {this obj : NodeId}
    (ht : this < g.nodes.size) (ho : obj < g.nodes.size) :
    fitsThis p g' this obj = fitsThis p g this obj := by
  unfold fitsThis
  rw [hg.entity_eq ht, hg.kind_eq ho]

theorem lt_of_isObject {g : Pag} {o : NodeId} (h : g.isObject o = true) : o < g.nodes.size := by
  obtain ⟨node, hn, -⟩ := Pag.isObject_iff.1 h
  exact Pag.node?_lt hn

theorem passes_mono {p : Program} {g g' : Pag} (hg : g.Extends g')
    (edges : ∀ {e}, e ∈ g.edges → e.src < g.nodes.size ∧ e.dst < g.nodes.size) {o src dst : NodeId}
    (ho : o < g.nodes.size) (h : g.Passes p o src dst) : g'.Passes p o src dst := by
  rcases h with h | h | ⟨h, hfits⟩
  · exact Or.inl (hg.edge h)
  · exact Or.inr (Or.inl (hg.edge h))
  · refine Or.inr (Or.inr ⟨hg.edge h, ?_⟩)
    rw [fitsThis_congr p hg (edges h).2 ho]
    exact hfits

theorem derives_mono {p : Program} {g g' : Pag} (hg : g.Extends g')
    (edges : ∀ {e}, e ∈ g.edges → e.src < g.nodes.size ∧ e.dst < g.nodes.size) {o n : NodeId}
    (ho : o < g.nodes.size) (h : g.Derives p o n) : g'.Derives p o n := by
  induction h with
  | address h => exact .address (hg.edge h)
  | pass _ edge ih => exact .pass ih (passes_mono hg edges ho edge)

/-- Growth keeps an analysis grounded if every new fact is. -/
theorem Grounded.grow {p : Program} {a a' : Analysis} (ha : a.Grounded p)
    (hg : a.pag.Extends a'.pag) (sound : a'.builder.Sound p)
    (facts : ∀ {n o}, o ∈ a'.facts.all n →
      o ∈ a.facts.all n ∨ a'.pag.isObject o = true ∧ a'.pag.Derives p o n)
    (exposed : ∀ {n o}, o ∈ a'.pag.ptsOf n → o ∈ a'.facts.all n) : a'.Grounded p where
  sound := sound
  object := fun ho => by
    rcases facts ho with ho | ho
    · exact hg.isObject (ha.object ho)
    · exact ho.1
  derived := fun ho => by
    rcases facts ho with ho | ho
    · exact derives_mono hg ha.sound.edge (lt_of_isObject (ha.object ho)) (ha.derived ho)
    · exact ho.2
  exposed := exposed

/-- A node receives facts that are grounded, while the graph stays as it is. -/
theorem Grounded.receives {p : Program} {a a' : Analysis} (ha : a.Grounded p) {n : NodeId}
    {P : NodeId → Prop} (h : a.ReceivesFacts n P a') (hb : a'.builder = a.builder)
    (hp : ∀ o, P o → a.pag.isObject o = true ∧ a.pag.Derives p o n) : a'.Grounded p := by
  have hpag : a'.pag = a.pag := by
    unfold pag
    rw [hb]
  refine ha.grow (hpag ▸ .rfl) (hb ▸ ha.sound) (fun {m o} ho => ?_) fun {m o} ho => ?_
  · refine (h.all_new ho).imp_right ?_
    rintro ⟨rfl, ho⟩
    rw [hpag]
    exact hp o ho
  · rw [hpag] at ho
    exact h.all_kept (ha.exposed ho)

/-! ## Steps keep facts grounded -/

/-- The builder, with the copy that is drawn. It is not logged, and nothing has to be. -/
theorem sound_addCopy {p : Program} {a : Analysis} (hb : a.builder.Sound p) (src dst : NodeId) :
    (a.addCopy src dst).builder.Sound p := by
  rw [builder_addCopy]
  refine hb.of_extends (a.pag.addEdge_extends .copy src dst) (by simp [pag]) (fun he => ?_)
    (fun he => he) rfl rfl rfl
  refine (Pag.mem_edges_addEdge he).imp_right ?_
  rintro ⟨-, rfl, hs, hd⟩
  exact ⟨by simp, hs, hd⟩

theorem sound_settle {p : Program} {a : Analysis} (hb : a.builder.Sound p) (n : NodeId) :
    (a.settle n).builder.Sound p := by
  rw [builder_settle]
  exact hb.of_extends (a.pag.addPts_extends n _) (by simp [pag]) Or.inl (fun he => he) rfl rfl rfl

theorem grounded_addCopy {p : Program} {a : Analysis} (ha : a.Grounded p) (src dst : NodeId) :
    (a.addCopy src dst).Grounded p := by
  have hrec := a.addCopy_receives src dst
  have hg : a.pag.Extends (a.addCopy src dst).pag := by
    rw [pag_addCopy]
    exact a.pag.addEdge_extends .copy src dst
  refine ha.grow hg (sound_addCopy ha.sound src dst) (fun {m o} ho => ?_) fun {m o} ho => ?_
  · refine (hrec.all_new ho).imp_right ?_
    rintro ⟨rfl, hnew, ho⟩
    refine ⟨hg.isObject (ha.object ho), .pass (derives_mono hg ha.sound.edge
      (lt_of_isObject (ha.object ho)) (ha.derived ho)) (Or.inl ?_)⟩
    rw [pag_addCopy]
    exact Pag.mem_edges_of_new hnew
  · rw [pag_addCopy, Pag.ptsOf, Pag.node?_addEdge] at ho
    exact hrec.all_kept (ha.exposed ho)

theorem VisitStep.grounded {p : Program} {n : NodeId} {a a' : Analysis} (h : VisitStep p n a a')
    (ha : a.Grounded p) : a'.Grounded p := by
  cases h with
  | pass dst objs passes =>
    refine ha.receives (a.pass_receives dst objs) (a.builder_pass dst objs) fun o ho => ?_
    have hall : o ∈ a.facts.all n := DiffStore.mem_all.2 (Or.inr (passes o ho).1)
    exact ⟨ha.object hall, .pass (ha.derived hall) (passes o ho).2⟩
  | field obj key cloneOf =>
    have hsteps : Builder.Steps p a.builder ((Build.fieldNode obj key cloneOf).run a.builder).2 :=
      Build.fieldNode_spec.1
    exact ha.grow hsteps.grows.pag (hsteps.sound ha.sound) Or.inl
      fun ho => ha.exposed (hsteps.grows.pts ho)
  | read joins load => exact grounded_addCopy ha _ _
  | write joins write => exact grounded_addCopy ha _ _

theorem Step.grounded {p : Program} {a a' : Analysis} (h : Step p a a') (ha : a.Grounded p) :
    a'.Grounded p := by
  cases h with
  | build h =>
    exact ha.grow h.grows.pag (h.sound ha.sound) Or.inl fun ho => ha.exposed (h.grows.pts ho)
  | take newEdges newSites edges =>
    have hsound : Builder.Sound p { a.builder with newEdges, newSites } :=
      ha.sound.of_extends .rfl rfl Or.inl (edges _) rfl rfl rfl
    exact ha.grow .rfl hsound Or.inl ha.exposed
  | seed he =>
    obtain ⟨m, P, hrec, hp⟩ := a.seedEdge_receives _
    refine ha.receives hrec (a.builder_seedEdge _) fun o ho => ?_
    rcases hp o ho with ho | rfl
    · have hall : o ∈ a.facts.all m := DiffStore.mem_all.2 (Or.inl ho)
      exact ⟨ha.object hall, ha.derived hall⟩
    · exact ⟨ha.sound.address he rfl, .address he⟩
  | visit n h => exact h.grounded ha
  | settle n =>
    have hg : a.pag.Extends (a.settle n).pag := by
      rw [pag_settle]
      exact a.pag.addPts_extends n _
    refine ha.grow hg (sound_settle ha.sound n) (fun ho => ?_) fun {m o} ho => ?_
    · rw [facts_settle, DiffStore.mem_all_flush] at ho
      exact Or.inl ho
    · rw [facts_settle, DiffStore.mem_all_flush]
      rw [pag_settle, Pag.mem_ptsOf_addPts] at ho
      rcases ho with ho | ⟨rfl, -, ho⟩
      · exact ha.exposed ho
      · exact DiffStore.mem_all.2 (Or.inr ho)
  | schedule queue arrivals stats => exact ⟨ha.sound, ha.object, ha.derived, ha.exposed⟩

theorem Steps.grounded {p : Program} {a a' : Analysis} (h : Steps p a a') (ha : a.Grounded p) :
    a'.Grounded p := by
  induction h with
  | refl => exact ha
  | tail _ hstep ih => exact hstep.grounded ih

/-- Nodes, edges and calls stay. -/
theorem Step.extends {p : Program} {a a' : Analysis} (h : Step p a a') :
    a.pag.Extends a'.pag ∧ a.builder.graph.Grows a'.builder.graph := by
  have same : ∀ {a' : Analysis}, a'.builder = a.builder →
      a.pag.Extends a'.pag ∧ a.builder.graph.Grows a'.builder.graph := by
    intro a' hb
    unfold pag
    rw [hb]
    exact ⟨.rfl, .rfl⟩
  have copied : ∀ src dst, a.pag.Extends (a.addCopy src dst).pag ∧
      a.builder.graph.Grows (a.addCopy src dst).builder.graph := by
    intro src dst
    rw [pag_addCopy, builder_addCopy]
    exact ⟨a.pag.addEdge_extends .copy src dst, .rfl⟩
  cases h with
  | build h => exact ⟨h.grows.pag, h.grows.graph⟩
  | take newEdges newSites edges => exact ⟨.rfl, .rfl⟩
  | seed he => exact same (a.builder_seedEdge _)
  | visit n h =>
    cases h with
    | pass dst objs passes => exact same (a.builder_pass dst objs)
    | field obj key cloneOf =>
      have hsteps : Builder.Steps p a.builder ((Build.fieldNode obj key cloneOf).run a.builder).2 :=
        Build.fieldNode_spec.1
      exact ⟨hsteps.grows.pag, hsteps.grows.graph⟩
    | read joins load => exact copied _ _
    | write joins write => exact copied _ _
  | settle n =>
    rw [pag_settle, builder_settle]
    exact ⟨a.pag.addPts_extends n _, .rfl⟩
  | schedule queue arrivals stats => exact same rfl

theorem Steps.extends {p : Program} {a a' : Analysis} (h : Steps p a a') :
    a.pag.Extends a'.pag ∧ a.builder.graph.Grows a'.builder.graph := by
  induction h with
  | refl => exact ⟨.rfl, .rfl⟩
  | tail _ hstep ih => exact ⟨ih.1.trans hstep.extends.1, ih.2.trans hstep.extends.2⟩

theorem grounded_ofGraph {p : Program} {g : CallGraph} (hg : g.Consistent p) (c : Config) :
    (ofGraph g c).Grounded p where
  sound := Builder.sound_ofGraph hg c.backing c.sensitivity c.kLimit
  object := fun ho => by simp [ofGraph, DiffStore.mem_all] at ho
  derived := fun ho => by simp [ofGraph, DiffStore.mem_all] at ho
  exposed := fun ho => by simp [ofGraph, Builder.ofGraph, pag, Pag.ptsOf, Pag.node?] at ho

end Analysis

end PointsTo
