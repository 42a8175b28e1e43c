import Mathlib.Data.Prod.Lex
import PointsTo.Proofs.Analysis.Propagation
import PointsTo.Proofs.Confined.Bounds
import PointsTo.Proofs.Confined.Builder
import PointsTo.Proofs.Lockstep.Propagation
import PointsTo.Proofs.Sets.Incremental

/-!
# Passing facts on comes to an end

A node is queued only if it gets a fact that it did not have (`QueuesNew`). Sets have to be
canonical for that, since a set answers whether it grows, and the answer is right only then.

Facts are about nodes and objects, so there are no more of them than pairs of nodes. A visit draws
copies and makes nodes for fields of objects, but no objects. So as long as the number of objects is
bounded, the queue gets empty (`propagate_terminates`).
-/

namespace PointsTo

namespace Analysis

variable {p : Program} {g : CallGraph} {a a' : Analysis} {n : NodeId}

/-- All sets are canonical: the analysis is alike itself. -/
def Canonical (a : Analysis) : Prop :=
  a.Alike { strict := True, known := [] } a

/-- The facts that are known, each a node and an object. -/
def known (a : Analysis) : Set (NodeId × NodeId) :=
  {x | x.2 ∈ a.facts.all x.1}

/-- Sets stay canonical, and nothing was queued, unless some fact was not known before. -/
def QueuesNew (a a' : Analysis) : Prop :=
  a.Canonical → a'.Canonical ∧ a.known ⊆ a'.known ∧
    (a'.queue = a.queue ∨ ∃ x ∈ a'.known, x ∉ a.known)

instance : IsPreorder Analysis QueuesNew where
  refl _ h := ⟨h, Set.Subset.rfl, Or.inl rfl⟩
  trans _ _ _ h h' hcan := by
    obtain ⟨hcan₁, hknown₁, hqueue₁⟩ := h hcan
    obtain ⟨hcan₂, hknown₂, hqueue₂⟩ := h' hcan₁
    refine ⟨hcan₂, hknown₁.trans hknown₂, ?_⟩
    rcases hqueue₂ with hqueue₂ | ⟨x, hx, hno⟩
    · rw [hqueue₂]
      exact hqueue₁.imp_right fun ⟨x, hx, hno⟩ => ⟨x, hknown₂ hx, hno⟩
    · exact Or.inr ⟨x, hx, fun hold => hno (hknown₁ hold)⟩

theorem AddsFresh.known_subset (h : a.AddsFresh a') : a.known ⊆ a'.known :=
  fun _ hx => h.all_kept hx

/-! ## One visit -/

theorem queue_receive (a : Analysis) (n : NodeId) (r : Bool × DiffStore) :
    (a.receive n r).queue = a.queue ∨ r.1 = true := by
  unfold receive
  dsimp only
  split
  · exact Or.inr ‹_›
  · exact Or.inl rfl

theorem facts_receive (a : Analysis) (n : NodeId) (r : Bool × DiffStore) :
    (a.receive n r).facts = r.2 := by
  unfold receive
  dsimp only
  split <;> rfl

/-- Facts are received, and the answer that queues the node tells of a new one. -/
theorem queuesNew_of_receive {a₁ : Analysis} {r : Bool × DiffStore} (queue : a₁.queue = a.queue)
    (feeds : a.AddsFresh (a₁.receive n r))
    (canonical : a.Canonical → (a₁.receive n r).Canonical)
    (new : a.Canonical → r.1 = true → ∃ o ∈ r.2.all n, o ∉ a.facts.all n) :
    QueuesNew a (a₁.receive n r) := by
  intro h
  refine ⟨canonical h, feeds.known_subset, ?_⟩
  rw [← queue]
  refine (queue_receive a₁ n r).imp_right fun ha => ?_
  obtain ⟨o, ho, hno⟩ := new h ha
  refine ⟨(n, o), ?_, hno⟩
  show o ∈ (a₁.receive n r).facts.all n
  rw [facts_receive]
  exact ho

theorem pass_queuesNew {objs : ObjSet} (hobjs : objs.Canonical) (dst : NodeId) :
    QueuesNew a (a.pass objs dst) := by
  unfold pass
  exact queuesNew_of_receive rfl (a.pass_receives dst objs).toAddsFresh
    (fun h => h.pass ⟨hobjs, hobjs, fun _ => Iff.rfl⟩ dst)
    fun h ha => DiffStore.exists_new_of_addAll h.facts hobjs ha

theorem addCopy_queuesNew (src dst : NodeId) : QueuesNew a (a.addCopy src dst) := by
  have feeds := (a.addCopy_receives src dst).toAddsFresh
  have canonical : a.Canonical → (a.addCopy src dst).Canonical := fun h => h.addCopy src dst
  rw [addCopy_eq] at feeds canonical ⊢
  split at feeds
  · rename_i hnew
    rw [if_pos hnew] at canonical ⊢
    exact queuesNew_of_receive rfl feeds canonical
      fun h ha => DiffStore.exists_new_of_addKnown h.facts ha
  · rename_i hold
    rw [if_neg hold]
    exact refl_of QueuesNew a

theorem passThis_queuesNew : QueuesNew a (passThis p a n) := by
  intro h
  refine foldl_any (R := QueuesNew) (fun dst _ a₁ _ => ?_) h
  exact pass_queuesNew ((h.facts.fresh n).left.eraseAll _) dst

/-- Only the builder is asked for the node of a field. -/
theorem fieldNode_queuesNew (obj : NodeId) (key : FieldKey) (cloneOf : Option NodeId) :
    QueuesNew a { a with builder := ((Build.fieldNode obj key cloneOf).run a.builder).2 } :=
  fun h => ⟨{ h with builder := (Build.fieldNode_respects.apply h.builder).2 }, Set.Subset.rfl,
    Or.inl rfl⟩

theorem joinField_queuesNew (obj ref : NodeId) : QueuesNew a (joinField obj a ref) := by
  unfold joinField
  split
  · exact refl_of QueuesNew a
  · rename_i base key _
    have hfield := fieldNode_queuesNew (a := a) obj key (some ref)
    dsimp only
    generalize (Build.fieldNode obj key (some ref)).run a.builder = r at hfield ⊢
    obtain ⟨field, builder⟩ := r
    refine trans_of QueuesNew hfield (trans_of QueuesNew (foldl_any fun dst _ _ _ => ?_)
      (foldl_any fun src _ _ _ => ?_))
    · exact addCopy_queuesNew field dst
    · exact addCopy_queuesNew src field

theorem joinFields_queuesNew : QueuesNew a (a.joinFields n) := by
  unfold joinFields
  dsimp only
  split
  · exact refl_of QueuesNew a
  · refine foldl_any (R := QueuesNew) fun obj _ a₁ _ => ?_
    split
    · exact foldl_any (R := QueuesNew) fun ref _ a₂ _ => joinField_queuesNew obj ref
    · exact refl_of QueuesNew a₁

theorem passCopies_queuesNew : QueuesNew a (a.passCopies n) := by
  intro h
  refine foldl_any (R := QueuesNew) (fun dst _ a₁ _ => ?_) h
  exact pass_queuesNew (h.facts.fresh n).left dst

theorem settle_queuesNew : QueuesNew a (a.settle n) := by
  intro h
  refine ⟨h.settle n, fun x hx => ?_, Or.inl (queue_settle a n)⟩
  show x.2 ∈ (a.settle n).facts.all x.1
  rw [facts_settle]
  exact DiffStore.mem_all_flush.2 hx

theorem visit_queuesNew : QueuesNew a (visit p a n) := by
  have h₁ : QueuesNew a (passThis p a n) := passThis_queuesNew
  have h₂ : QueuesNew a ((passThis p a n).joinFields n) :=
    trans_of QueuesNew h₁ joinFields_queuesNew
  have h₃ : QueuesNew a (preVisit p a n) := trans_of QueuesNew h₂ passCopies_queuesNew
  rw [visit_eq]
  exact trans_of QueuesNew h₃ settle_queuesNew

/-! ## Visits keep the builder confined -/

/-- The analysis keeps the id beside the builder: it is queued, or it is noted for the calls that
wait, or there are facts about it. -/
def HoldsId (a : Analysis) (n : NodeId) : Prop :=
  n ∈ a.queue ∨ (∃ x ∈ a.arrivals, n = x.1 ∨ n ∈ x.2) ∨ a.facts.HasKey n

/-- All of these are nodes. -/
def HoldsNodes (a : Analysis) : Prop :=
  ∀ n, a.HoldsId n → n < a.pag.nodes.size

/-- The builder stays confined and grows, and the analysis keeps nodes. -/
structure KeepsConfined (p : Program) (g : CallGraph) (a a' : Analysis) : Prop extends
    Builder.KeepsConfined p g a.builder a'.builder where
  scheduled : a.HoldsNodes → a'.HoldsNodes

instance : IsPreorder Analysis (KeepsConfined p g) where
  refl a := ⟨refl_of (Builder.KeepsConfined p g) a.builder, id⟩
  trans _ _ _ h h' := ⟨trans_of (Builder.KeepsConfined p g) h.toKeepsConfined h'.toKeepsConfined,
    fun ha => h'.scheduled (h.scheduled ha)⟩

/-- There are more objects than that. -/
def Exceeds (objects : Nat) (a : Analysis) : Prop :=
  a.builder.Exceeds objects

instance (objects : Nat) : Lasts (KeepsConfined p g) (Exceeds objects) where
  lasts h hout := Lasts.lasts (R := Builder.KeepsConfined p g) h.toKeepsConfined hout

/-- What is new beside the builder are nodes. -/
theorem KeepsConfined.of_new (h : Builder.KeepsConfined p g a.builder a'.builder)
    (new : ∀ n, a'.HoldsId n → a.HoldsId n ∨ n < a'.pag.nodes.size) : KeepsConfined p g a a' where
  toKeepsConfined := h
  scheduled ha n hn := (new n hn).elim (fun hn => h.expands.pag.lt (ha n hn)) id

/-- Only the builder changes. -/
theorem KeepsConfined.build {b : Builder} (h : Builder.KeepsConfined p g a.builder b) :
    KeepsConfined p g a { a with builder := b } :=
  .of_new h fun _ => Or.inl

/-- The builder does not change. -/
theorem KeepsConfined.of_builder (h : a'.builder = a.builder)
    (old : ∀ n, a'.HoldsId n → a.HoldsId n) : KeepsConfined p g a a' := by
  refine .of_new ?_ fun n hn => Or.inl (old n hn)
  rw [h]
  exact refl_of (Builder.KeepsConfined p g) a.builder

theorem receive_keepsConfined {r : Bool × DiffStore} (hn : n < a.pag.nodes.size)
    (hkeys : ∀ m, r.2.HasKey m → a.facts.HasKey m ∨ m = n) :
    KeepsConfined p g a (a.receive n r) := by
  have keys : ∀ m, r.2.HasKey m → a.HoldsId m ∨ m < a.pag.nodes.size := by
    intro m hm
    rcases hkeys m hm with hm | rfl
    · exact Or.inl (Or.inr (Or.inr hm))
    · exact Or.inr hn
  unfold receive
  dsimp only
  split
  · refine .of_new (refl_of (Builder.KeepsConfined p g) a.builder) ?_
    rintro m (hm | hm | hm)
    · rcases List.mem_append.1 hm with hm | hm
      · exact Or.inl (Or.inl hm)
      · exact Or.inr (List.mem_singleton.1 hm ▸ hn)
    · exact Or.inl (Or.inr (Or.inl hm))
    · exact keys m hm
  · refine .of_new (refl_of (Builder.KeepsConfined p g) a.builder) ?_
    rintro m (hm | hm | hm)
    · exact Or.inl (Or.inl hm)
    · exact Or.inl (Or.inr (Or.inl hm))
    · exact keys m hm

theorem pass_keepsConfined {objs : ObjSet} {dst : NodeId} (hdst : dst < a.pag.nodes.size) :
    KeepsConfined p g a (a.pass objs dst) := by
  have h₁ : KeepsConfined p g a a.countPropagation := .of_builder rfl fun _ => id
  exact trans_of (KeepsConfined p g) h₁ (receive_keepsConfined (r := a.facts.addAll dst objs) hdst
    fun _ => DiffStore.hasKey_addAll)

/-- The copy is not logged. -/
theorem addCopy_keepsConfined (src dst : NodeId) : KeepsConfined p g a (a.addCopy src dst) := by
  have hexp : a.builder.LogsOnlyNew { a.builder with pag := (a.pag.addEdge .copy src dst).2 } :=
    .of_same (a.pag.addEdge_extends .copy src dst) .rfl .rfl rfl rfl rfl
  have hkeeps : Builder.KeepsConfined p g a.builder
      { a.builder with pag := (a.pag.addEdge .copy src dst).2 } := by
    refine ⟨fun hb => ?_, hexp⟩
    refine hb.grow hexp (hb.pag.addEdge .copy src dst) (fun hx => Or.inl ?_)
      (hb.properItems hexp) hb.graph Or.inl Or.inl Or.inl Or.inl Or.inl fun hs => Or.inl hs
    have hlt := Pag.node?_lt hx
    rw [Pag.nodes_addEdge] at hlt
    exact hlt
  rw [addCopy_eq]
  split
  · rename_i hnew
    have h₁ : KeepsConfined p g a (a.setPag (a.pag.addEdge .copy src dst).2) := .build hkeeps
    have h₂ : KeepsConfined p g (a.setPag (a.pag.addEdge .copy src dst).2)
        (a.setPag (a.pag.addEdge .copy src dst).2).countPropagation :=
      .of_builder rfl fun _ => id
    refine trans_of (KeepsConfined p g) (trans_of (KeepsConfined p g) h₁ h₂)
      (receive_keepsConfined ?_ fun _ => DiffStore.hasKey_addKnown)
    unfold Pag.addEdge at hnew
    split at hnew
    · rename_i hends
      simp only [Bool.and_eq_true, decide_eq_true_eq] at hends
      show dst < (a.pag.addEdge .copy src dst).2.nodes.size
      rw [Pag.nodes_addEdge]
      exact hends.1.2
    · cases hnew
  · exact refl_of (KeepsConfined p g) a

theorem joinField_keepsConfined (hb : a.builder.Confined p g) {obj : NodeId}
    (hobj : a.pag.isObject obj = true) (ref : NodeId) :
    KeepsConfined p g a (joinField obj a ref) := by
  unfold joinField
  split
  · exact refl_of (KeepsConfined p g) a
  · rename_i base key href
    obtain ⟨x, hx, hkind⟩ := Option.bind_eq_some_iff.1 href
    have hfield : Builder.KeepsConfined p g a.builder
        ((Build.fieldNode obj key (some ref)).run a.builder).2 :=
      (Build.fieldNode_keepsConfined hb (hb.isOwner_of_isObject hobj) ((hb.node hx).kind.key hkind)
        (Build.isNode?_some (Pag.node?_lt hx))).1
    dsimp only
    generalize (Build.fieldNode obj key (some ref)).run a.builder = r at hfield ⊢
    obtain ⟨field, builder⟩ := r
    have h₁ : KeepsConfined p g a { a with builder } := .build hfield
    refine trans_of (KeepsConfined p g) h₁
      (trans_of (KeepsConfined p g) (foldl_any fun dst _ _ _ => ?_) (foldl_any fun src _ _ _ => ?_))
    · exact addCopy_keepsConfined field dst
    · exact addCopy_keepsConfined src field

theorem joinFields_keepsConfined (hb : a.builder.Confined p g) :
    KeepsConfined p g a (a.joinFields n) := by
  unfold joinFields
  dsimp only
  split
  · exact refl_of (KeepsConfined p g) a
  · refine foldl_any (R := KeepsConfined p g) fun obj _ a₁ h₁ => ?_
    split
    · rename_i hobj
      refine foldl_any (R := KeepsConfined p g) fun ref _ a₂ h₂ => ?_
      exact joinField_keepsConfined (h₂.confined (h₁.confined hb))
        (h₂.expands.pag.isObject hobj) ref
    · exact refl_of (KeepsConfined p g) a₁

/-- Facts go along edges, and edges join nodes. -/
theorem passAll_keepsConfined (hb : a.builder.Confined p g) (objs : Analysis → NodeId → ObjSet)
    {targets : List NodeId} (h : ∀ dst ∈ targets, ∃ kind, ⟨kind, n, dst⟩ ∈ a.pag.edges) :
    KeepsConfined p g a (targets.foldl (fun a dst => a.pass (objs a dst) dst) a) := by
  refine foldl_any fun dst hdst a₁ h₁ => pass_keepsConfined ?_
  obtain ⟨kind, he⟩ := h dst hdst
  exact h₁.expands.pag.lt (hb.pag.edge he).2

theorem passThis_keepsConfined (hb : a.builder.Confined p g) :
    KeepsConfined p g a (passThis p a n) :=
  passAll_keepsConfined (n := n) hb (fun a' dst => acceptedBy p a'.pag dst (a.facts.freshOf n))
    fun _ hdst => ⟨.this, Pag.mem_outEdges.1 hdst⟩

theorem passCopies_keepsConfined (hb : a.builder.Confined p g) :
    KeepsConfined p g a (a.passCopies n) := by
  refine passAll_keepsConfined (n := n) hb (fun _ _ => a.facts.freshOf n) fun dst hdst => ?_
  rcases List.mem_append.1 hdst with hdst | hdst
  · exact ⟨.copy, Pag.mem_outEdges.1 hdst⟩
  · exact ⟨.interprocedural, Pag.mem_outEdges.1 hdst⟩

theorem settle_keepsConfined (hobjs : ∀ o ∈ a.facts.freshOf n, a.pag.isObject o = true) :
    KeepsConfined p g a (a.settle n) := by
  have hexp : a.builder.LogsOnlyNew
      { a.builder with pag := a.pag.addPts n (a.facts.freshOf n) } :=
    .of_same (a.pag.addPts_extends n _) .rfl .rfl rfl rfl rfl
  have hkeeps : Builder.KeepsConfined p g a.builder (a.settle n).builder := by
    rw [builder_settle]
    refine ⟨fun hb => ?_, hexp⟩
    refine hb.grow hexp (hb.pag.addPts n hobjs) (fun hx => Or.inl ?_) (hb.properItems hexp)
      hb.graph Or.inl Or.inl Or.inl Or.inl (fun he => Or.inl he) fun hs => Or.inl hs
    have hlt := Pag.node?_lt hx
    rw [Pag.size_addPts] at hlt
    exact hlt
  refine .of_new hkeeps ?_
  rintro m (hm | ⟨x, hx, hm⟩ | hm)
  · rw [queue_settle] at hm
    exact Or.inl (Or.inl hm)
  · -- Calls wait at nodes only, so what is noted for them is about a node.
    have hsettled : x ∈ a.arrivals ∨ ((a.settle n).pag.sitesOf n ≠ [] ∧
        x = (n, (a.facts.freshOf n).toList)) := by
      unfold settle at hx ⊢
      dsimp only at hx ⊢
      split at hx
      · exact Or.inl hx
      · rename_i hsites
        rw [if_neg hsites]
        exact (Array.mem_push.1 hx).imp_right fun heq =>
          ⟨fun hnil => hsites (List.isEmpty_iff.2 hnil), heq⟩
    rcases hsettled with hx | ⟨hsites, rfl⟩
    · exact Or.inl (Or.inr (Or.inl ⟨x, hx, hm⟩))
    · obtain ⟨site, hsite⟩ := List.exists_mem_of_ne_nil _ hsites
      rcases hm with rfl | ho
      · exact Or.inr (Builder.lt_of_mem_sitesOf hsite)
      · exact Or.inr (hkeeps.expands.pag.lt (lt_of_isObject (hobjs m (ObjSet.mem_def.2 ho))))
  · rw [facts_settle] at hm
    exact Or.inl (Or.inr (Or.inr (DiffStore.hasKey_flush hm)))

theorem visit_keepsConfined (ha : a.Grounded p) (hb : a.builder.Confined p g) :
    KeepsConfined p g a (visit p a n) := by
  have h₁ : KeepsConfined p g a (passThis p a n) := passThis_keepsConfined hb
  have h₂ : KeepsConfined p g a ((passThis p a n).joinFields n) :=
    trans_of (KeepsConfined p g) h₁ (joinFields_keepsConfined (h₁.confined hb))
  have h₃ : KeepsConfined p g a (preVisit p a n) :=
    trans_of (KeepsConfined p g) h₂ (passCopies_keepsConfined (h₂.confined hb))
  have ha₃ : (preVisit p a n).Grounded p := (preVisit_visitSteps ha).steps.grounded ha
  rw [visit_eq]
  refine trans_of (KeepsConfined p g) h₃ (settle_keepsConfined fun o ho => ?_)
  exact ha₃.object (DiffStore.mem_all.2 (Or.inr ho))

/-! ## The queue -/

/-- The analysis can only go so far. -/
structure WithinBounds (p : Program) (g : CallGraph) (k : Nat) (a : Analysis) : Prop where
  grounded : a.Grounded p
  canonical : a.Canonical
  confined : a.builder.Confined p g
  k : a.builder.contexts.k = k

theorem WithinBounds.keep {k : Nat} (h : WithinBounds p g k a) (hkeeps : KeepsConfined p g a a')
    (hgrounded : a'.Grounded p) (hcanonical : a'.Canonical) : WithinBounds p g k a' where
  grounded := hgrounded
  canonical := hcanonical
  confined := hkeeps.confined h.confined
  k := hkeeps.expands.contexts.k.trans h.k

/-- Facts are at nodes that edges lead to. -/
theorem Grounded.known_subset (ha : a.Grounded p) {n : Nat} (hn : a.pag.nodes.size ≤ n) :
    a.known ⊆ {m | m < n} ×ˢ {m | m < n} := by
  rintro ⟨m, o⟩ hx
  refine ⟨Nat.lt_of_lt_of_le ?_ hn, Nat.lt_of_lt_of_le (lt_of_isObject (ha.object hx)) hn⟩
  cases ha.derived hx with
  | address h => exact (ha.sound.edge h).2
  | pass _ edge =>
    rcases edge with h | h | ⟨h, -⟩
    · exact (ha.sound.edge h).2
    · exact (ha.sound.edge h).2
    · exact (ha.sound.edge h).2

/-- A canonical set that is not empty has a member. -/
theorem Canonical.exists_fresh (h : a.Canonical) (hfresh : a.facts.hasFresh n = true) :
    ∃ o, o ∈ a.facts.freshOf n := by
  by_contra hempty
  have hsame := (h.facts.fresh n).left.isEmpty_iff.2 (not_exists.1 hempty)
  rw [DiffStore.hasFresh, hsame] at hfresh
  cases hfresh

/-- A node with facts that it has not passed on is there. -/
theorem Grounded.node?_isSome (ha : a.Grounded p) (hcanonical : a.Canonical)
    (hfresh : a.facts.hasFresh n = true) : (a.pag.node? n).isSome = true := by
  obtain ⟨o, ho⟩ := hcanonical.exists_fresh hfresh
  have hknown : (n, o) ∈ a.known := DiffStore.mem_all.2 (Or.inr ho)
  have hlt := (ha.known_subset (Nat.le_refl _) hknown).1
  exact Option.isSome_of_eq_some (Pag.exists_node? hlt).choose_spec

/-- How much room there is for more facts, and how long the queue is. -/
noncomputable def queueMeasure (n : Nat) (a : Analysis) : Nat ×ₗ Nat :=
  toLex (n * n - a.known.ncard, a.queue.length)

/-- There is a new fact, or the queue is shorter. -/
theorem queueMeasure_lt {n : Nat} (ha : a'.Grounded p) (hn : a'.pag.nodes.size ≤ n)
    (hknown : a.known ⊆ a'.known)
    (hqueue : a'.queue.length < a.queue.length ∨ ∃ x ∈ a'.known, x ∉ a.known) :
    queueMeasure n a' < queueMeasure n a := by
  have hsub := ha.known_subset hn
  have hfinite : ({m | m < n} ×ˢ {m | m < n} : Set (NodeId × NodeId)).Finite :=
    (Set.finite_lt_nat n).prod (Set.finite_lt_nat n)
  unfold queueMeasure
  rw [Prod.Lex.toLex_lt_toLex]
  by_cases hnew : ∃ x ∈ a'.known, x ∉ a.known
  · obtain ⟨x, hx, hno⟩ := hnew
    refine Or.inl (room_lt hknown hx hno (hfinite.subset hsub) ?_)
    refine (Set.ncard_le_ncard hsub hfinite).trans_eq ?_
    rw [Set.ncard_prod, ncard_lt]
  · have heq : a'.known = a.known :=
      Set.Subset.antisymm (fun x hx => by_contra fun hno => hnew ⟨x, hx, hno⟩) hknown
    rw [heq]
    exact Or.inr ⟨rfl, hqueue.resolve_right hnew⟩

/-- Visits the first node in the queue; tells whether there was one. -/
def propagateStep (p : Program) : TryAnalysis Bool := do
  match (← get).queue with
  | [] => return false
  | n :: rest =>
    modify fun a => { a with queue := rest }
    if (← get).facts.hasFresh n then
      if ((← get).pag.node? n).isNone then throw (.missingNode n)
      modify fun a => visit p a n
    return true

theorem propagate_succ (p : Program) (n : Nat) :
    propagate p (n + 1) = (do if ← propagateStep p then propagate p n) := by
  unfold propagateStep
  rw [propagate, bind_assoc]
  congr 1
  funext a
  cases a.queue with
  | nil => rfl
  | cons head rest =>
    simp only [bind_assoc]
    refine congrArg _ (funext fun _ => congrArg _ (funext fun a₁ => ?_))
    split
    · rw [bind_assoc]
      refine congrArg _ (funext fun a₂ => ?_)
      split
      · simp only [bind_assoc, pure_bind, if_true]
      · simp only [bind_assoc, pure_bind, if_true]
    · rw [pure_bind, if_pos rfl]

variable {k objects : Nat} {F : Failure → Prop}

theorem propagateStep_terminates {bound : Nat} (h : WithinBounds p g k a)
    (hwithin : ∀ b : Builder, b.Confined p g → b.contexts.k = k → ¬b.Exceeds objects →
      b.Within bound) :
    TryTerminates F (KeepsConfined p g) (propagateStep p) a fun more a' => WithinBounds p g k a' ∧
      (more = true → ¬a'.Exceeds objects → queueMeasure bound a' < queueMeasure bound a) := by
  unfold propagateStep
  refine .get_bind ?_
  split
  · exact .pure ⟨h, nofun⟩
  · rename_i n rest hqueue
    have h₁ : WithinBounds p g k { a with queue := rest } := {
      grounded := (Step.schedule rest a.arrivals a.stats).grounded h.grounded
      canonical := { h.canonical with queue := rfl }
      confined := h.confined
      k := h.k }
    have shorter : rest.length < a.queue.length := by simp [hqueue]
    have measure : ∀ a', WithinBounds p g k a' → a.known ⊆ a'.known →
        (a'.queue = rest ∨ ∃ x ∈ a'.known, x ∉ a.known) → ¬a'.Exceeds objects →
        queueMeasure bound a' < queueMeasure bound a := by
      intro a' h' hknown hnew hin
      refine queueMeasure_lt h'.grounded (hwithin _ h'.confined h'.k hin).nodes hknown ?_
      refine hnew.imp_left fun heq => ?_
      rw [heq]
      exact shorter
    refine .modify_bind (.of_builder rfl fun m hm => ?_) (.get_bind ?_)
    · refine hm.imp_left fun hm => ?_
      rw [hqueue]
      exact List.mem_cons_of_mem _ hm
    dsimp only
    split
    · rename_i hfresh
      refine .get_bind ?_
      split
      · rename_i hnone
        rw [← Option.not_isSome, h₁.grounded.node?_isSome h₁.canonical hfresh] at hnone
        cases hnone
      · have hkeeps := visit_keepsConfined (n := n) h₁.grounded h₁.confined
        obtain ⟨hcanonical, hknown, hnew⟩ := visit_queuesNew (p := p) (n := n) h₁.canonical
        have h₂ : WithinBounds p g k (visit p { a with queue := rest } n) :=
          h₁.keep hkeeps ((visit_steps h₁.grounded).grounded h₁.grounded) hcanonical
        refine .modify_bind hkeeps (.pure ⟨h₂, fun _ hin => ?_⟩)
        exact measure _ h₂ hknown hnew hin
    · exact .pure ⟨h₁, fun _ hin => measure _ h₁ Set.Subset.rfl (Or.inl rfl) hin⟩

/-- This cannot fail, so `F` is anything. -/
theorem propagate_terminates (h : WithinBounds p g k a) :
    Terminates F (KeepsConfined p g) (Exceeds objects) (propagate p) a fun _ _ => True := by
  obtain ⟨bound, hwithin⟩ := Builder.Confined.within p g k objects
  refine .loop (I := WithinBounds p g k) (queueMeasure bound) (fun _ a₁ _ => ?_)
    (fun _ n => propagate_succ p n) (fun a₁ h₁ => .of_tryTerminates ?_) h
  · unfold propagate
    refine .get_bind ?_
    split
    · exact .throw (Or.inl rfl)
    · exact .pure trivial
  · exact propagateStep_terminates h₁ fun b hb hk hin => hwithin b hb hk (Nat.le_of_not_lt hin)

end Analysis

end PointsTo
