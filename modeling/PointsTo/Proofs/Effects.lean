import Mathlib.Logic.Relation

/-!
# Specifications of steps

A step takes a state to another one and answers something. `Spec R m s Q` says that the step `m`,
from the state `s`, ends in a state that `R` relates to `s`, and answers something that satisfies
`Q` together with the state it ends in. Steps that may fail keep to `R` in any case, and satisfy `Q`
if they do not fail (`TrySpec`). What holds from any state is a guarantee of the step
(`Guarantees`).

`R` is a preorder, so what is done one after the other keeps to `R` if each part does. A part may
rely on what the parts before it have answered, and on the change that they have made.
-/

namespace PointsTo

variable {σ ε α β : Type} {R : σ → σ → Prop} {s : σ}

/-- From the state `s`, the step `m` keeps to `R`, and its answer satisfies `Q`. -/
def Spec (R : σ → σ → Prop) (m : StateM σ α) (s : σ) (Q : α → σ → Prop) : Prop :=
  R s (m.run s).2 ∧ Q (m.run s).1 (m.run s).2

/-- The same for steps that may fail. If they do, nothing is said of the answer. -/
def TrySpec (R : σ → σ → Prop) (m : ExceptT ε (StateM σ) α) (s : σ) (Q : α → σ → Prop) : Prop :=
  Spec R m.run s fun r s' => ∀ x, r = .ok x → Q x s'

namespace Spec

variable {m : StateM σ α} {Q : α → σ → Prop}

theorem mono {Q' : α → σ → Prop} (h : Spec R m s Q) (hq : ∀ x s', R s s' → Q x s' → Q' x s') :
    Spec R m s Q' :=
  ⟨h.1, hq _ _ h.1 h.2⟩

/-- Forgets the answer. -/
theorem any (h : Spec R m s Q) : Spec R m s fun _ _ => True :=
  ⟨h.1, trivial⟩

theorem weaken {R' : σ → σ → Prop} (h : Spec R m s Q) (hr : ∀ s', R s s' → R' s s') :
    Spec R' m s Q :=
  ⟨hr _ h.1, h.2⟩

theorem get_bind {f : σ → StateM σ α} (h : Spec R (f s) s Q) : Spec R (get >>= f) s Q :=
  h

theorem modify {f : σ → σ} {Q : Unit → σ → Prop} (hr : R s (f s)) (hq : Q () (f s)) :
    Spec R (modify f) s Q :=
  ⟨hr, hq⟩

theorem discard {Q : Unit → σ → Prop} (h : Spec R m s fun _ s' => Q () s') :
    Spec R (Functor.discard m) s Q :=
  h

theorem map {f : α → β} {Q : β → σ → Prop} (h : Spec R m s fun x s' => Q (f x) s') :
    Spec R (f <$> m) s Q :=
  h

section Preorder

variable [IsPreorder σ R]

theorem pure {x : α} (hq : Q x s) : Spec R (Pure.pure x : StateM σ α) s Q :=
  ⟨refl_of R s, hq⟩

theorem bind {f : α → StateM σ β} {P : α → σ → Prop} {Q : β → σ → Prop} (hm : Spec R m s P)
    (hf : ∀ x s', R s s' → P x s' → Spec R (f x) s' Q) : Spec R (m >>= f) s Q := by
  obtain ⟨h₁, h₂⟩ := hm
  obtain ⟨h₃, h₄⟩ := hf _ _ h₁ h₂
  exact ⟨trans_of R h₁ h₃, h₄⟩

/-- What comes next does not depend on the answer. -/
theorem seq {f : α → StateM σ β} {Q : β → σ → Prop} (hm : Spec R m s fun _ _ => True)
    (hf : ∀ x s', R s s' → Spec R (f x) s' Q) : Spec R (m >>= f) s Q :=
  hm.bind fun x s' h _ => hf x s' h

theorem modify_bind {f : σ → σ} {k : PUnit → StateM σ β} {Q : β → σ → Prop} (hr : R s (f s))
    (h : Spec R (k ⟨⟩) (f s) Q) : Spec R (MonadState.modifyGet (fun s => (⟨⟩, f s)) >>= k) s Q :=
  ⟨trans_of R hr h.1, h.2⟩

theorem set_bind {s' : σ} {k : PUnit → StateM σ β} {Q : β → σ → Prop} (hr : R s s')
    (h : Spec R (k ⟨⟩) s' Q) : Spec R ((MonadStateOf.set s' : StateM σ PUnit) >>= k) s Q :=
  ⟨trans_of R hr h.1, h.2⟩

/-- A loop, of which every round ensures something that later rounds do not undo. -/
theorem forM {xs : List α} {f : α → StateM σ PUnit} {P : α → σ → Prop}
    (stable : ∀ x s₁ s₂, R s₁ s₂ → P x s₁ → P x s₂)
    (h : ∀ x ∈ xs, ∀ s', R s s' → Spec R (f x) s' fun _ => P x) :
    Spec R (xs.forM f) s fun _ s' => ∀ x ∈ xs, P x s' := by
  induction xs generalizing s with
  | nil => exact .pure (by simp)
  | cons x xs ih =>
    refine .bind (h x (by simp) s (refl_of R s)) fun _ s₁ h₁ hx => ?_
    have hrest := @ih s₁ fun y hy s₂ h₂ => h y (by simp [hy]) s₂ (trans_of R h₁ h₂)
    refine hrest.mono fun _ s₂ h₂ hxs y hy => ?_
    rcases List.mem_cons.1 hy with rfl | hy
    · exact stable y s₁ s₂ h₂ hx
    · exact hxs y hy

/-- A loop, of whose rounds nothing is asked but that they keep to `R`. -/
theorem forM_any {xs : List α} {f : α → StateM σ PUnit}
    (h : ∀ x ∈ xs, ∀ s', R s s' → Spec R (f x) s' fun _ _ => True) :
    Spec R (xs.forM f) s fun _ _ => True :=
  (forM (P := fun _ _ => True) (fun _ _ _ _ _ => trivial) h).any

end Preorder

end Spec

namespace TrySpec

variable {m : ExceptT ε (StateM σ) α} {Q : α → σ → Prop}

theorem mono {Q' : α → σ → Prop} (h : TrySpec R m s Q) (hq : ∀ x s', R s s' → Q x s' → Q' x s') :
    TrySpec R m s Q' :=
  Spec.mono h fun _ s' hr hx x he => hq x s' hr (hx x he)

/-- Forgets the answer. -/
theorem any (h : TrySpec R m s Q) : TrySpec R m s fun _ _ => True :=
  h.mono fun _ _ _ _ => trivial

theorem weaken {R' : σ → σ → Prop} (h : TrySpec R m s Q) (hr : ∀ s', R s s' → R' s s') :
    TrySpec R' m s Q :=
  Spec.weaken h hr

/-- What is known of a run that succeeds. -/
theorem of_run {x : α} {s' : σ} (hm : TrySpec R m s Q) (h : m.run.run s = (.ok x, s')) :
    R s s' ∧ Q x s' := by
  obtain ⟨hr, hq⟩ := hm
  rw [h] at hr hq
  exact ⟨hr, hq x rfl⟩

theorem get_bind {f : σ → ExceptT ε (StateM σ) α} (h : TrySpec R (f s) s Q) :
    TrySpec R (get >>= f) s Q :=
  h

theorem modify {f : σ → σ} {Q : Unit → σ → Prop} (hr : R s (f s)) (hq : Q () (f s)) :
    TrySpec R (modify f : ExceptT ε (StateM σ) Unit) s Q :=
  ⟨hr, fun _ _ => hq⟩

theorem modifyGet {f : σ → α × σ} (hr : R s (f s).2) (hq : Q (f s).1 (f s).2) :
    TrySpec R (modifyGet f : ExceptT ε (StateM σ) α) s Q := by
  refine ⟨hr, fun x hx => ?_⟩
  cases hx
  exact hq

theorem lift {m : StateM σ α} (h : Spec R m s Q) :
    TrySpec R (liftM m : ExceptT ε (StateM σ) α) s Q := by
  refine ⟨h.1, fun x hx => ?_⟩
  cases hx
  exact h.2

section Preorder

variable [IsPreorder σ R]

theorem pure {x : α} (hq : Q x s) : TrySpec R (Pure.pure x : ExceptT ε (StateM σ) α) s Q := by
  refine ⟨refl_of R s, fun y hy => ?_⟩
  cases hy
  exact hq

theorem throw {e : ε} : TrySpec R (throw e : ExceptT ε (StateM σ) α) s Q :=
  ⟨refl_of R s, fun _ h => nomatch h⟩

theorem bind {f : α → ExceptT ε (StateM σ) β} {P : α → σ → Prop} {Q : β → σ → Prop}
    (hm : TrySpec R m s P) (hf : ∀ x s', R s s' → P x s' → TrySpec R (f x) s' Q) :
    TrySpec R (m >>= f) s Q := by
  show Spec R (m.run >>= ExceptT.bindCont f) s _
  refine Spec.bind hm fun r s' h₁ h₂ => ?_
  cases r with
  | error e => exact .pure fun _ h => nomatch h
  | ok x => exact hf x s' h₁ (h₂ x rfl)

/-- What comes next does not depend on the answer. -/
theorem seq {f : α → ExceptT ε (StateM σ) β} {Q : β → σ → Prop}
    (hm : TrySpec R m s fun _ _ => True) (hf : ∀ x s', R s s' → TrySpec R (f x) s' Q) :
    TrySpec R (m >>= f) s Q :=
  hm.bind fun x s' h _ => hf x s' h

theorem modify_bind {f : σ → σ} {k : PUnit → ExceptT ε (StateM σ) β} {Q : β → σ → Prop}
    (hr : R s (f s)) (h : TrySpec R (k ⟨⟩) (f s) Q) :
    TrySpec R (MonadState.modifyGet (fun s => (⟨⟩, f s)) >>= k) s Q :=
  ⟨trans_of R hr h.1, h.2⟩

/-- The step goes on like another one, from a state that is related to `s`. -/
theorem of_run_eq {m' : ExceptT ε (StateM σ) α} {s₁ : σ} (hr : R s s₁)
    (heq : m.run.run s = m'.run.run s₁) (h : TrySpec R m' s₁ Q) : TrySpec R m s Q := by
  unfold TrySpec Spec at h ⊢
  rw [heq]
  exact ⟨trans_of R hr h.1, h.2⟩

theorem map {f : α → β} {Q : β → σ → Prop} (h : TrySpec R m s fun x s' => Q (f x) s') :
    TrySpec R (f <$> m) s Q := by
  rw [map_eq_pure_bind]
  exact h.bind fun _ _ _ hx => .pure hx

theorem discard {Q : Unit → σ → Prop} (h : TrySpec R m s fun _ s' => Q () s') :
    TrySpec R (Functor.discard m) s Q :=
  map h

/-- A loop, of which every round keeps an invariant, and ensures something that later rounds do not
undo. -/
theorem forM_invariant {xs : List α} {f : α → ExceptT ε (StateM σ) PUnit} {I : σ → Prop}
    {P : α → σ → Prop} (stable : ∀ x s₁ s₂, R s₁ s₂ → P x s₁ → P x s₂) (init : I s)
    (h : ∀ x ∈ xs, ∀ s', R s s' → I s' → TrySpec R (f x) s' fun _ s'' => I s'' ∧ P x s'') :
    TrySpec R (xs.forM f) s fun _ s' => I s' ∧ ∀ x ∈ xs, P x s' := by
  induction xs generalizing s with
  | nil => exact .pure ⟨init, by simp⟩
  | cons x xs ih =>
    refine .bind (h x (by simp) s (refl_of R s) init) fun _ s₁ h₁ ⟨hi, hx⟩ => ?_
    have hrest := @ih s₁ hi fun y hy s₂ h₂ => h y (by simp [hy]) s₂ (trans_of R h₁ h₂)
    -- What the first round has ensured is not undone by the others.
    refine hrest.mono fun _ s₂ h₂ ⟨hi₂, hxs⟩ => ⟨hi₂, fun y hy => ?_⟩
    rcases List.mem_cons.1 hy with rfl | hy
    · exact stable y s₁ s₂ h₂ hx
    · exact hxs y hy

/-- The same without an invariant. -/
theorem forM {xs : List α} {f : α → ExceptT ε (StateM σ) PUnit} {P : α → σ → Prop}
    (stable : ∀ x s₁ s₂, R s₁ s₂ → P x s₁ → P x s₂)
    (h : ∀ x ∈ xs, ∀ s', R s s' → TrySpec R (f x) s' fun _ => P x) :
    TrySpec R (xs.forM f) s fun _ s' => ∀ x ∈ xs, P x s' := by
  refine (forM_invariant (I := fun _ => True) stable trivial fun x hx s' h' _ => ?_).mono ?_
  · exact (h x hx s' h').mono fun _ _ _ hp => ⟨trivial, hp⟩
  · exact fun _ _ _ hp => hp.2

/-- A loop, of whose rounds nothing is asked but that they keep to `R`. -/
theorem forM_any {xs : List α} {f : α → ExceptT ε (StateM σ) PUnit}
    (h : ∀ x ∈ xs, ∀ s', R s s' → TrySpec R (f x) s' fun _ _ => True) :
    TrySpec R (xs.forM f) s fun _ _ => True :=
  (forM (P := fun _ _ => True) (fun _ _ _ _ _ => trivial) h).any

end Preorder

end TrySpec

/-- A loop over a list without answers, of which every round keeps to `R` and ensures something
that later rounds do not undo. -/
theorem foldl_spec [IsPreorder σ R] {f : σ → α → σ} {P : α → σ → Prop}
    (stable : ∀ x s₁ s₂, R s₁ s₂ → P x s₁ → P x s₂) {xs : List α}
    (h : ∀ x ∈ xs, ∀ s', R s s' → R s' (f s' x) ∧ P x (f s' x)) :
    R s (xs.foldl f s) ∧ ∀ x ∈ xs, P x (xs.foldl f s) := by
  induction xs generalizing s with
  | nil => exact ⟨refl_of R s, by simp⟩
  | cons x xs ih =>
    obtain ⟨h₁, hx⟩ := h x (by simp) s (refl_of R s)
    obtain ⟨h₂, hxs⟩ := @ih (f s x) fun y hy s' h' => h y (by simp [hy]) s' (trans_of R h₁ h')
    refine ⟨trans_of R h₁ h₂, fun y hy => ?_⟩
    rcases List.mem_cons.1 hy with rfl | hy
    · exact stable y _ _ h₂ hx
    · exact hxs y hy

/-- A loop, of whose rounds nothing is asked but that they keep to `R`. -/
theorem foldl_any [IsPreorder σ R] {f : σ → α → σ} {xs : List α}
    (h : ∀ x ∈ xs, ∀ s', R s s' → R s' (f s' x)) : R s (xs.foldl f s) :=
  (foldl_spec (P := fun _ _ => True) (fun _ _ _ _ _ => trivial)
    fun x hx s' h' => ⟨h x hx s' h', trivial⟩).1

/-- Nothing is said of what a step changes. -/
def AnyChange (_ _ : σ) : Prop :=
  True

instance : IsPreorder σ AnyChange where
  refl _ := trivial
  trans _ _ _ _ _ := trivial

/-! ## From any state -/

/-- From any state the step keeps to `R`. -/
def Guarantees (R : σ → σ → Prop) (m : StateM σ α) : Prop :=
  ∀ s, R s (m.run s).2

/-- From any state the step keeps to `R`, if it succeeds. -/
def TryGuarantees (R : σ → σ → Prop) (m : ExceptT ε (StateM σ) α) : Prop :=
  ∀ ⦃s x s'⦄, m.run.run s = (.ok x, s') → R s s'

namespace Guarantees

variable {m : StateM σ α}

theorem of_spec {Q : σ → α → σ → Prop} (h : ∀ s, Spec R m s (Q s)) : Guarantees R m :=
  fun s => (h s).1

theorem spec (h : Guarantees R m) : Spec R m s fun _ _ => True :=
  ⟨h s, trivial⟩

theorem weaken {R' : σ → σ → Prop} (h : Guarantees R m) (hr : ∀ {s s'}, R s s' → R' s s') :
    Guarantees R' m :=
  fun s => hr (h s)

theorem map {f : α → β} (h : Guarantees R m) : Guarantees R (f <$> m) :=
  h

theorem discard (h : Guarantees R m) : Guarantees R (Functor.discard m) :=
  h

variable [IsPreorder σ R]

theorem pure {x : α} : Guarantees R (Pure.pure x : StateM σ α) :=
  fun s => refl_of R s

theorem get : Guarantees R (MonadState.get : StateM σ σ) :=
  fun s => refl_of R s

theorem bind {f : α → StateM σ β} (hm : Guarantees R m) (hf : ∀ x, Guarantees R (f x)) :
    Guarantees R (m >>= f) :=
  fun s => trans_of R (hm s) (hf _ _)

theorem forM {xs : List α} {f : α → StateM σ PUnit} (h : ∀ x ∈ xs, Guarantees R (f x)) :
    Guarantees R (xs.forM f) :=
  fun _ => (Spec.forM_any fun x hx _ _ => (h x hx).spec).1

end Guarantees

namespace TryGuarantees

variable {m : ExceptT ε (StateM σ) α}

theorem of_spec {Q : σ → α → σ → Prop} (h : ∀ s, TrySpec R m s (Q s)) : TryGuarantees R m :=
  fun s _ _ hrun => ((h s).of_run hrun).1

theorem throw {e : ε} : TryGuarantees R (throw e : ExceptT ε (StateM σ) α) :=
  fun _ _ _ hrun => nomatch hrun

/-- If two steps succeed, one after the other, so does each of them. -/
theorem of_bind {f : α → ExceptT ε (StateM σ) β} {y : β} {s' : σ}
    (h : (m >>= f).run.run s = (.ok y, s')) :
    ∃ x s₁, m.run.run s = (.ok x, s₁) ∧ (f x).run.run s₁ = (.ok y, s') := by
  replace h : (m.run >>= ExceptT.bindCont f).run s = (.ok y, s') := h
  rw [StateT.run_bind] at h
  generalize hm : m.run.run s = r at h
  obtain ⟨result, s₁⟩ := r
  cases result with
  | error e => cases h
  | ok x => exact ⟨x, s₁, rfl, h⟩

variable [IsPreorder σ R]

theorem pure {x : α} : TryGuarantees R (Pure.pure x : ExceptT ε (StateM σ) α) := by
  intro s y s' hrun
  cases hrun
  exact refl_of R s

theorem get : TryGuarantees R (MonadState.get : ExceptT ε (StateM σ) σ) := by
  intro s y s' hrun
  cases hrun
  exact refl_of R s

theorem bind {f : α → ExceptT ε (StateM σ) β} (hm : TryGuarantees R m)
    (hf : ∀ x, TryGuarantees R (f x)) : TryGuarantees R (m >>= f) := by
  intro s y s' hrun
  obtain ⟨x, s₁, h₁, h₂⟩ := of_bind hrun
  exact trans_of R (hm h₁) (hf x h₂)

theorem forM {xs : List α} {f : α → ExceptT ε (StateM σ) PUnit}
    (h : ∀ x ∈ xs, TryGuarantees R (f x)) : TryGuarantees R (xs.forM f) := by
  induction xs with
  | nil => exact .pure
  | cons x xs ih => exact .bind (h x (by simp)) fun _ => ih fun y hy => h y (by simp [hy])

end TryGuarantees

/-! ## From any state, as far as it counts -/

/-- The outcomes of a step that count. -/
inductive Outcomes where
  | all
  | successes

/-- Whether the outcome counts. -/
def Outcomes.Count : Outcomes → Except ε α → Prop
  | all, _ => True
  | successes, result => result.isOk = true

/-- From any state the step keeps to `R`, if its outcome counts. -/
def GuaranteesOn (o : Outcomes) (R : σ → σ → Prop) (m : ExceptT ε (StateM σ) α) : Prop :=
  ∀ s, o.Count (m.run.run s).1 → R s (m.run.run s).2

namespace GuaranteesOn

variable {o : Outcomes} {m : ExceptT ε (StateM σ) α}

theorem of_spec {Q : σ → α → σ → Prop} (h : ∀ s, TrySpec R m s (Q s)) : GuaranteesOn o R m :=
  fun s _ => (h s).1

theorem of_tryGuarantees (h : TryGuarantees R m) : GuaranteesOn .successes R m := by
  intro s hok
  cases hr : (m.run.run s).1 with
  | error e => rw [hr] at hok; cases hok
  | ok x => exact h (Prod.ext hr rfl)

theorem tryGuarantees (h : GuaranteesOn .successes R m) : TryGuarantees R m := by
  intro s x s' hrun
  have hok := h s
  rw [hrun] at hok
  exact hok rfl

theorem spec (h : GuaranteesOn .all R m) : TrySpec R m s fun _ _ => True :=
  ⟨h s trivial, fun _ _ => trivial⟩

/-- What is known of the answer is known along with what the step changes. -/
theorem along {S : σ → σ → Prop} {Q : α → σ → Prop} (h : GuaranteesOn .all S m)
    (hm : TrySpec R m s Q) : TrySpec R m s fun x s' => Q x s' ∧ S s s' :=
  ⟨hm.1, fun x hx => ⟨hm.2 x hx, h s trivial⟩⟩

theorem weaken {R' : σ → σ → Prop} (h : GuaranteesOn o R m) (hr : ∀ {s s'}, R s s' → R' s s') :
    GuaranteesOn o R' m :=
  fun s hok => hr (h s hok)

theorem lift {m : StateM σ α} (h : Guarantees R m) :
    GuaranteesOn o R (liftM m : ExceptT ε (StateM σ) α) :=
  fun s _ => h s

theorem modify {f : σ → σ} (h : ∀ s, R s (f s)) :
    GuaranteesOn o R (modify f : ExceptT ε (StateM σ) Unit) :=
  fun s _ => h s

variable [IsPreorder σ R]

theorem pure {x : α} : GuaranteesOn o R (Pure.pure x : ExceptT ε (StateM σ) α) :=
  fun s _ => refl_of R s

theorem throw {e : ε} : GuaranteesOn o R (throw e : ExceptT ε (StateM σ) α) :=
  fun s _ => refl_of R s

theorem get : GuaranteesOn o R (MonadState.get : ExceptT ε (StateM σ) σ) :=
  fun s _ => refl_of R s

theorem bind {f : α → ExceptT ε (StateM σ) β} (hm : GuaranteesOn o R m)
    (hf : ∀ x, GuaranteesOn o R (f x)) : GuaranteesOn o R (m >>= f) := by
  intro s
  show o.Count ((m.run >>= ExceptT.bindCont f).run s).1 →
    R s ((m.run >>= ExceptT.bindCont f).run s).2
  rw [StateT.run_bind]
  have hfirst := hm s
  generalize m.run.run s = r at hfirst ⊢
  obtain ⟨result, s₁⟩ := r
  intro hcount
  cases result with
  | error e =>
    refine hfirst ?_
    cases o with
    | all => trivial
    | successes => exact absurd hcount Bool.false_ne_true
  | ok x =>
    refine trans_of R (hfirst ?_) (hf x s₁ hcount)
    cases o with
    | all => trivial
    | successes => rfl

theorem map {f : α → β} (h : GuaranteesOn o R m) : GuaranteesOn o R (f <$> m) := by
  rw [map_eq_pure_bind]
  exact h.bind fun _ => .pure

theorem discard (h : GuaranteesOn o R m) : GuaranteesOn o R (Functor.discard m) :=
  map h

theorem forM {xs : List α} {f : α → ExceptT ε (StateM σ) PUnit}
    (h : ∀ x ∈ xs, GuaranteesOn o R (f x)) : GuaranteesOn o R (xs.forM f) := by
  induction xs with
  | nil => exact .pure
  | cons x xs ih => exact .bind (h x (by simp)) fun _ => ih fun y hy => h y (by simp [hy])

end GuaranteesOn

end PointsTo
