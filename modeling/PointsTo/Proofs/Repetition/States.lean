import PointsTo.Proofs.Links.Wholeness
import PointsTo.Proofs.Lockstep.Effects

/-!
# Steps done again

A step is *idempotent* if, once it has been done, doing it again answers the same and changes
nothing, whatever else has been asked of the builder meanwhile (`IdempotentAt`). Later on, a builder
has more of everything, but it shows no more facts (`Builder.GrowsQuietly`): facts are passed on
between the calls that are looked at, and not meanwhile.

The queue of methods is treated apart. A method that is asked for again waits again, and is dropped
when its turn comes. So of steps that may fail we say what they may do to the queue, and what they
do to it the second time (`TryIdempotentAt`). This depends on whether callees wait in the queue or
are laid out at once (`Queueing`).
-/

namespace PointsTo

namespace Builder

/-- The builder later on, as long as no facts are passed on. Nothing is said of the queue. -/
structure GrowsQuietly (b b' : Builder) : Prop where
  pag : b.pag.Extends b'.pag
  graph : b.graph.Grows b'.graph
  contexts : b.contexts.Extends b'.contexts
  single : ∀ {f answer}, b.singletons.lookup f = some answer →
    b'.singletons.lookup f = some answer
  built : b.built ⊆ b'.built
  factsAndCalls : b.KeepsFactsAndCalls b'

instance : IsPreorder Builder GrowsQuietly where
  refl _ := ⟨.rfl, .rfl, .rfl, id, List.Subset.refl _, .rfl⟩
  trans _ _ _ h h' := ⟨h.pag.trans h'.pag, h.graph.trans h'.graph, h.contexts.trans h'.contexts,
    fun hs => h'.single (h.single hs), fun _ hx => h'.built (h.built hx),
    h.factsAndCalls.trans h'.factsAndCalls⟩

variable {p : Program} {b b' c : Builder}

theorem KeepsLinked.growsQuietly (h : KeepsLinked p b b') : b.GrowsQuietly b' :=
  ⟨h.pag, h.graph, h.contexts, h.single, h.built ▸ List.Subset.refl _, h.factsAndCalls⟩

theorem KeepsRequests.growsQuietly (h : KeepsRequests p b b') : b.GrowsQuietly b' :=
  h.toKeepsLinked.growsQuietly

theorem GrowsQuietly.withPending (h : b.GrowsQuietly c) (pending : List (FuncId × ContextId)) :
    b.GrowsQuietly { c with pending } :=
  ⟨h.pag, h.graph, h.contexts, h.single, h.built, h.factsAndCalls.pts, h.factsAndCalls.hasCallOnce,
    h.factsAndCalls.unhandled⟩

theorem GrowsQuietly.of_withPending {pending : List (FuncId × ContextId)}
    (h : GrowsQuietly { b with pending } c) : b.GrowsQuietly c :=
  ⟨h.pag, h.graph, h.contexts, h.single, h.built, h.factsAndCalls.pts, h.factsAndCalls.hasCallOnce,
    h.factsAndCalls.unhandled⟩

theorem growsQuietly_takenUp (b : Builder) (x : ContextId × FuncId) :
    b.GrowsQuietly { b with built := x :: b.built } :=
  ⟨.rfl, .rfl, .rfl, id, List.subset_cons_self .., .of_same rfl rfl rfl⟩

end Builder

open Builder (GrowsQuietly KeepsLinked KeepsRequests)

/-! ## Steps that always succeed -/

variable {α β : Type} {p : Program} {b : Builder}

/-- The step asks for no methods. Once it has been done, doing it again changes nothing. -/
structure IdempotentAt (m : Build α) (b : Builder) (Q : α → Builder → Prop) : Prop where
  growsQuietly : b.GrowsQuietly (m.run b).2
  pending : (m.run b).2.pending = b.pending
  answer : Q (m.run b).1 (m.run b).2
  again : ∀ c, (m.run b).2.GrowsQuietly c → m.run c = ((m.run b).1, c)

namespace IdempotentAt

variable {m : Build α} {P Q : α → Builder → Prop}

theorem of_keepsRequests (h : Spec (KeepsRequests p) m b Q)
    (again : ∀ c, (m.run b).2.GrowsQuietly c → m.run c = ((m.run b).1, c)) : IdempotentAt m b Q :=
  ⟨h.1.growsQuietly, h.1.samePending, h.2, again⟩

theorem mono (h : IdempotentAt m b P) (hq : ∀ x b', b.GrowsQuietly b' → P x b' → Q x b') :
    IdempotentAt m b Q :=
  ⟨h.growsQuietly, h.pending, hq _ _ h.growsQuietly h.answer, h.again⟩

theorem any (h : IdempotentAt m b P) : IdempotentAt m b fun _ _ => True :=
  h.mono fun _ _ _ _ => trivial

theorem pure {x : α} (hq : Q x b) : IdempotentAt (Pure.pure x) b Q :=
  ⟨refl_of GrowsQuietly b, rfl, hq, fun _ _ => rfl⟩

theorem bind {f : α → Build β} {Q : β → Builder → Prop} (hm : IdempotentAt m b P)
    (hf : ∀ x b₁, b.GrowsQuietly b₁ → P x b₁ → IdempotentAt (f x) b₁ Q) :
    IdempotentAt (m >>= f) b Q := by
  have hrest := hf _ _ hm.growsQuietly hm.answer
  refine ⟨trans_of GrowsQuietly hm.growsQuietly hrest.growsQuietly, hrest.pending.trans hm.pending,
    hrest.answer, ?_⟩
  intro c hc
  show (f (m.run c).1).run (m.run c).2 = _
  rw [hm.again c (trans_of GrowsQuietly hrest.growsQuietly hc)]
  exact hrest.again c hc

theorem seq {f : α → Build β} {Q : β → Builder → Prop} (hm : IdempotentAt m b fun _ _ => True)
    (hf : ∀ x b₁, b.GrowsQuietly b₁ → IdempotentAt (f x) b₁ Q) : IdempotentAt (m >>= f) b Q :=
  hm.bind fun x b₁ h₁ _ => hf x b₁ h₁

/-- What the step reads of the builder stays the same. -/
theorem get_bind {f : Builder → Build α} (same : ∀ c, b.GrowsQuietly c → f c = f b)
    (h : IdempotentAt (f b) b Q) : IdempotentAt (get >>= f) b Q := by
  refine ⟨h.growsQuietly, h.pending, h.answer, fun c hc => ?_⟩
  show (f c).run c = _
  rw [same c (trans_of GrowsQuietly h.growsQuietly hc)]
  exact h.again c hc

theorem map {f : α → β} {Q : β → Builder → Prop} (h : IdempotentAt m b fun x b' => Q (f x) b') :
    IdempotentAt (f <$> m) b Q := by
  refine ⟨h.growsQuietly, h.pending, h.answer, fun c hc => ?_⟩
  show (f (m.run c).1, (m.run c).2) = _
  rw [h.again c hc]
  rfl

theorem forM {xs : List α} {f : α → Build PUnit}
    (h : ∀ x ∈ xs, ∀ b₁, b.GrowsQuietly b₁ → IdempotentAt (f x) b₁ fun _ _ => True) :
    IdempotentAt (xs.forM f) b fun _ _ => True := by
  induction xs generalizing b with
  | nil => exact .pure trivial
  | cons x xs ih =>
    refine .seq (h x (by simp) b (refl_of GrowsQuietly b)) fun _ b₁ h₁ => ih fun y hy b₂ h₂ => ?_
    exact h y (by simp [hy]) b₂ (trans_of GrowsQuietly h₁ h₂)

end IdempotentAt

/-! ## The queue -/

abbrev Queue := List (FuncId × ContextId)

/-- What steps do to the queue. -/
structure Queueing where
  /-- A step may take the queue there. -/
  Takes : Queue → Queue → Prop
  /-- A step that took the first queue to the second may be done again at the third, and then takes
  that to the fourth. -/
  Again : Queue → Queue → Queue → Queue → Prop
  keeps : ∀ q, Takes q q
  idle : ∀ {q r r'}, Again q q r r' → r' = r
  chain : ∀ {q q₁ q'}, Takes q q₁ → Takes q₁ q' → Takes q q'
  split : ∀ {q q₁ q' r r'}, Takes q q₁ → Takes q₁ q' → Again q q' r r' →
    ∃ r₁, Again q q₁ r r₁ ∧ Again q₁ q' r₁ r'

namespace Queueing

/-- Methods are put in the queue, and the second time they are put there again. -/
def asking : Queueing where
  Takes q q' := q <+: q'
  Again q q' r r' := ∃ asked, q' = q ++ asked ∧ r' = r ++ asked
  keeps q := List.prefix_rfl
  idle := by
    rintro q r _ ⟨asked, hq, rfl⟩
    simp [List.self_eq_append_right.1 hq]
  chain h h' := h.trans h'
  split := by
    rintro q _ _ r _ ⟨asked₁, rfl⟩ ⟨asked₂, rfl⟩ ⟨asked, hq, rfl⟩
    rw [List.append_assoc, List.append_cancel_left_eq] at hq
    exact ⟨r ++ asked₁, ⟨asked₁, rfl, rfl⟩, asked₂, rfl, by rw [← hq, List.append_assoc]⟩

/-- All that waits is laid out before the step ends, or the queue is not touched. The second time,
nothing waits but what still waited after the first time. -/
def draining : Queueing where
  Takes q q' := q' = q ∨ q' = []
  Again _ q' r r' := r' = r ∧ (r = q' ∨ r = [])
  keeps _ := Or.inl rfl
  idle h := h.1
  chain := by
    rintro q q₁ q' (rfl | rfl) (rfl | rfl) <;> simp
  split := by
    rintro q q₁ q' r _ - h ⟨heq, hr⟩
    refine ⟨r, ⟨rfl, ?_⟩, heq, hr⟩
    rcases hr with hr | hr
    · exact hr ▸ h
    · exact Or.inr hr

end Queueing

/-! ## Steps that may fail -/

/-- If the step succeeds, then doing it again does so too, answers the same, and changes nothing but
the queue. -/
def TryIdempotentAt (w : Queueing) (m : TryBuild α) (b : Builder) (Q : α → Builder → Prop) : Prop :=
  ∀ ⦃x b'⦄, m.run.run b = (.ok x, b') →
    b.GrowsQuietly b' ∧ w.Takes b.pending b'.pending ∧ Q x b' ∧
    ∀ c pending, b'.GrowsQuietly c → w.Again b.pending b'.pending c.pending pending →
      m.run.run c = (.ok x, { c with pending })

namespace TryIdempotentAt

variable {w : Queueing} {m : TryBuild α} {P Q : α → Builder → Prop}

theorem mono (h : TryIdempotentAt w m b P) (hq : ∀ x b', b.GrowsQuietly b' → P x b' → Q x b') :
    TryIdempotentAt w m b Q := fun x b' hrun =>
  let ⟨hlater, htakes, hp, hagain⟩ := h hrun
  ⟨hlater, htakes, hq x b' hlater hp, hagain⟩

theorem any (h : TryIdempotentAt w m b P) : TryIdempotentAt w m b fun _ _ => True :=
  h.mono fun _ _ _ _ => trivial

/-- The queue is not touched. -/
theorem of_same (h : ∀ {x b'}, m.run.run b = (.ok x, b') →
    b.GrowsQuietly b' ∧ b'.pending = b.pending ∧
    Q x b' ∧ ∀ c, b'.GrowsQuietly c → m.run.run c = (.ok x, c)) : TryIdempotentAt w m b Q := by
  intro x b' hrun
  obtain ⟨hlater, hpending, hq, hagain⟩ := h hrun
  refine ⟨hlater, hpending ▸ w.keeps _, hq, fun c pending hc hr => ?_⟩
  rw [hpending] at hr
  cases w.idle hr
  exact hagain c hc

theorem lift {m : Build α} (h : IdempotentAt m b Q) :
    TryIdempotentAt w (liftM m : TryBuild α) b Q := by
  refine .of_same fun {x b'} hrun => ?_
  have hok : ∀ c, (liftM m : TryBuild α).run.run c = (.ok (m.run c).1, (m.run c).2) := fun _ => rfl
  rw [hok] at hrun
  cases hrun
  refine ⟨h.growsQuietly, h.pending, h.answer, fun c hc => ?_⟩
  rw [hok, h.again c hc]

theorem pure {x : α} (hq : Q x b) : TryIdempotentAt w (Pure.pure x) b Q :=
  .lift (.pure hq)

theorem bind {f : α → TryBuild β} {Q : β → Builder → Prop} (hm : TryIdempotentAt w m b P)
    (hf : ∀ x b₁, b.GrowsQuietly b₁ → P x b₁ → TryIdempotentAt w (f x) b₁ Q) :
    TryIdempotentAt w (m >>= f) b Q := by
  intro y b' hrun
  obtain ⟨x, b₁, hfirst, hrest⟩ := TryGuarantees.of_bind hrun
  obtain ⟨h₁, htakes₁, hp, hagain₁⟩ := hm hfirst
  obtain ⟨h₂, htakes₂, hq, hagain₂⟩ := hf x b₁ h₁ hp hrest
  refine ⟨trans_of GrowsQuietly h₁ h₂, w.chain htakes₁ htakes₂, hq, fun c pending hc hr => ?_⟩
  obtain ⟨pending₁, hr₁, hr₂⟩ := w.split htakes₁ htakes₂ hr
  have hrun₁ := hagain₁ c pending₁ (trans_of GrowsQuietly h₂ hc) hr₁
  rw [run_bind_ok (congrArg Prod.fst hrun₁), hrun₁]
  exact hagain₂ _ pending (hc.withPending pending₁) hr₂

theorem seq {f : α → TryBuild β} {Q : β → Builder → Prop}
    (hm : TryIdempotentAt w m b fun _ _ => True)
    (hf : ∀ x b₁, b.GrowsQuietly b₁ → TryIdempotentAt w (f x) b₁ Q) :
    TryIdempotentAt w (m >>= f) b Q :=
  hm.bind fun x b₁ h₁ _ => hf x b₁ h₁

/-- What the step reads of the builder stays the same. -/
theorem get_bind {f : Builder → TryBuild α} (same : ∀ c, b.GrowsQuietly c → f c = f b)
    (h : TryIdempotentAt w (f b) b Q) : TryIdempotentAt w (get >>= f) b Q := by
  intro x b' hrun
  obtain ⟨hlater, htakes, hq, hagain⟩ := h hrun
  refine ⟨hlater, htakes, hq, fun c pending hc hr => ?_⟩
  rw [run_get_bind, same c (trans_of GrowsQuietly hlater hc)]
  exact hagain c pending hc hr

theorem map {f : α → β} {Q : β → Builder → Prop}
    (h : TryIdempotentAt w m b fun x b' => Q (f x) b') : TryIdempotentAt w (f <$> m) b Q := by
  rw [map_eq_pure_bind]
  exact h.bind fun _ _ _ hx => .pure hx

theorem discard {Q : Unit → Builder → Prop} (h : TryIdempotentAt w m b fun _ b' => Q () b') :
    TryIdempotentAt w (Functor.discard m) b Q :=
  map h

theorem forM {xs : List α} {f : α → TryBuild PUnit}
    (h : ∀ x ∈ xs, ∀ b₁, b.GrowsQuietly b₁ → TryIdempotentAt w (f x) b₁ fun _ _ => True) :
    TryIdempotentAt w (xs.forM f) b fun _ _ => True := by
  induction xs generalizing b with
  | nil => exact .pure trivial
  | cons x xs ih =>
    refine .seq (h x (by simp) b (refl_of GrowsQuietly b)) fun _ b₁ h₁ => ih fun y hy b₂ h₂ => ?_
    exact h y (by simp [hy]) b₂ (trans_of GrowsQuietly h₁ h₂)

end TryIdempotentAt

end PointsTo
