import Mathlib.Order.Filter.AtTopBot.Basic
import PointsTo.Proofs.Lockstep.Effects

/-!
# Coming to an end

Loops are bounded by fuel, and a step *starves* if it runs out of it. Steps without loops never do
(`TryTerminates`). Apart from that, steps fail in few ways, which are given by `F` here.

A step that takes fuel *terminates* (`Terminates`) if with enough of it, it does not starve, and
more of it changes nothing. We only ask for that as long as the states it goes through stay in
bounds. What is done one after the other ends if each part does, and a loop ends if every round
makes something smaller that cannot get smaller for ever (`Terminates.loop`).
-/

namespace PointsTo

open Filter

variable {σ α β : Type} {F : Failure → Prop} {R : σ → σ → Prop} {Out : σ → Prop} {s s' : σ}

/-! ## How steps fail -/

/-- From the state `s`, the step keeps to `R`, its answer satisfies `Q`, and unless it starves, it
fails as given by `F` only. -/
structure Runs (F : Failure → Prop) (R : σ → σ → Prop) (m : ExceptT Failure (StateM σ) α) (s : σ)
    (Q : α → σ → Prop) : Prop where
  spec : TrySpec R m s Q
  fails : ∀ {e}, (m.run.run s).1 = .error e → e = .outOfFuel ∨ F e

namespace Runs

variable {m : ExceptT Failure (StateM σ) α} {Q : α → σ → Prop}

theorem mono {Q' : α → σ → Prop} (h : Runs F R m s Q)
    (hq : ∀ x s', R s s' → Q x s' → Q' x s') : Runs F R m s Q' :=
  ⟨h.spec.mono hq, h.fails⟩

theorem get_bind {f : σ → ExceptT Failure (StateM σ) α} (h : Runs F R (f s) s Q) :
    Runs F R (get >>= f) s Q :=
  ⟨.get_bind h.spec, h.fails⟩

section Preorder

variable [IsPreorder σ R]

theorem pure {x : α} (hq : Q x s) : Runs F R (Pure.pure x : ExceptT Failure (StateM σ) α) s Q :=
  ⟨.pure hq, nofun⟩

theorem throw {e : Failure} (he : e = .outOfFuel ∨ F e) :
    Runs F R (throw e : ExceptT Failure (StateM σ) α) s Q := by
  refine ⟨.throw, fun h => ?_⟩
  cases h
  exact he

theorem modify_bind {f : σ → σ} {k : PUnit → ExceptT Failure (StateM σ) β} {Q : β → σ → Prop}
    (hr : R s (f s)) (h : Runs F R (k ⟨⟩) (f s) Q) :
    Runs F R (MonadState.modifyGet (fun s => (⟨⟩, f s)) >>= k) s Q :=
  ⟨.modify_bind hr h.spec, h.fails⟩

theorem bind {f : α → ExceptT Failure (StateM σ) β} {P : α → σ → Prop} {Q : β → σ → Prop}
    (hm : Runs F R m s P) (hf : ∀ x s', R s s' → P x s' → Runs F R (f x) s' Q) :
    Runs F R (m >>= f) s Q := by
  refine ⟨.bind hm.spec fun x s' h hx => (hf x s' h hx).spec, fun {e} he => ?_⟩
  cases hx : (m.run.run s).1 with
  | error e' =>
    rw [run_bind_error hx] at he
    cases he
    exact hm.fails hx
  | ok x =>
    rw [run_bind_ok hx] at he
    exact (hf x _ hm.spec.1 (hm.spec.2 x hx)).fails he

end Preorder

end Runs

/-- Nothing is said of how the step fails. -/
def AnyFailure (_ : Failure) : Prop :=
  True

/-! ## Steps without loops -/

/-- The step does not starve. -/
def TryTerminates (F : Failure → Prop) (R : σ → σ → Prop) (m : ExceptT Failure (StateM σ) α) (s : σ)
    (Q : α → σ → Prop) : Prop :=
  Runs F R m s Q ∧ ¬Starves m s

namespace TryTerminates

variable {m : ExceptT Failure (StateM σ) α} {Q : α → σ → Prop}

theorem mono {Q' : α → σ → Prop} (h : TryTerminates F R m s Q)
    (hq : ∀ x s', R s s' → Q x s' → Q' x s') : TryTerminates F R m s Q' :=
  ⟨h.1.mono hq, h.2⟩

/-- Forgets the answer. -/
theorem any (h : TryTerminates F R m s Q) : TryTerminates F R m s fun _ _ => True :=
  h.mono fun _ _ _ _ => trivial

theorem weaken {F' : Failure → Prop} {R' : σ → σ → Prop} (h : TryTerminates F R m s Q)
    (hf : ∀ e, F e → F' e) (hr : ∀ s', R s s' → R' s s') : TryTerminates F' R' m s Q :=
  ⟨⟨h.1.spec.weaken hr, fun he => (h.1.fails he).imp_right (hf _)⟩, h.2⟩

theorem trySpec (h : TryTerminates F R m s Q) : TrySpec R m s Q :=
  h.1.spec

theorem get_bind {f : σ → ExceptT Failure (StateM σ) α} (h : TryTerminates F R (f s) s Q) :
    TryTerminates F R (get >>= f) s Q :=
  ⟨.get_bind h.1, h.2⟩

theorem modify {f : σ → σ} {Q : Unit → σ → Prop} (hr : R s (f s)) (hq : Q () (f s)) :
    TryTerminates F R (modify f : ExceptT Failure (StateM σ) Unit) s Q :=
  ⟨⟨.modify hr hq, nofun⟩, nofun⟩

theorem modifyGet {f : σ → α × σ} (hr : R s (f s).2) (hq : Q (f s).1 (f s).2) :
    TryTerminates F R (modifyGet f : ExceptT Failure (StateM σ) α) s Q :=
  ⟨⟨.modifyGet hr hq, nofun⟩, nofun⟩

theorem lift {m : StateM σ α} (h : Spec R m s Q) :
    TryTerminates F R (liftM m : ExceptT Failure (StateM σ) α) s Q :=
  ⟨⟨.lift h, nofun⟩, nofun⟩

section Preorder

variable [IsPreorder σ R]

theorem pure {x : α} (hq : Q x s) :
    TryTerminates F R (Pure.pure x : ExceptT Failure (StateM σ) α) s Q :=
  ⟨.pure hq, nofun⟩

theorem throw {e : Failure} (he : e ≠ .outOfFuel) (hf : F e) :
    TryTerminates F R (throw e : ExceptT Failure (StateM σ) α) s Q := by
  refine ⟨.throw (Or.inr hf), fun h => ?_⟩
  cases h
  exact he rfl

theorem bind {f : α → ExceptT Failure (StateM σ) β} {P : α → σ → Prop} {Q : β → σ → Prop}
    (hm : TryTerminates F R m s P) (hf : ∀ x s', R s s' → P x s' → TryTerminates F R (f x) s' Q) :
    TryTerminates F R (m >>= f) s Q := by
  refine ⟨.bind hm.1 fun x s' h hx => (hf x s' h hx).1, fun hs => ?_⟩
  unfold Starves at hs
  cases hx : (m.run.run s).1 with
  | error e =>
    rw [run_bind_error hx] at hs
    cases hs
    exact hm.2 hx
  | ok x =>
    rw [run_bind_ok hx] at hs
    exact (hf x _ hm.1.spec.1 (hm.1.spec.2 x hx)).2 hs

/-- What comes next does not depend on the answer. -/
theorem seq {f : α → ExceptT Failure (StateM σ) β} {Q : β → σ → Prop}
    (hm : TryTerminates F R m s fun _ _ => True)
    (hf : ∀ x s', R s s' → TryTerminates F R (f x) s' Q) : TryTerminates F R (m >>= f) s Q :=
  hm.bind fun x s' h _ => hf x s' h

theorem modify_bind {f : σ → σ} {k : PUnit → ExceptT Failure (StateM σ) β} {Q : β → σ → Prop}
    (hr : R s (f s)) (h : TryTerminates F R (k ⟨⟩) (f s) Q) :
    TryTerminates F R (MonadState.modifyGet (fun s => (⟨⟩, f s)) >>= k) s Q :=
  ⟨.modify_bind hr h.1, h.2⟩

theorem map {f : α → β} {Q : β → σ → Prop} (h : TryTerminates F R m s fun x s' => Q (f x) s') :
    TryTerminates F R (f <$> m) s Q := by
  rw [map_eq_pure_bind]
  exact h.bind fun _ _ _ hx => .pure hx

theorem discard {Q : Unit → σ → Prop} (h : TryTerminates F R m s fun _ s' => Q () s') :
    TryTerminates F R (Functor.discard m) s Q :=
  map h

/-- A loop over a list that keeps an invariant. -/
theorem forM_invariant {xs : List α} {f : α → ExceptT Failure (StateM σ) PUnit} {I : σ → Prop}
    (init : I s)
    (h : ∀ x ∈ xs, ∀ s', R s s' → I s' → TryTerminates F R (f x) s' fun _ s'' => I s'') :
    TryTerminates F R (xs.forM f) s fun _ s' => I s' := by
  induction xs generalizing s with
  | nil => exact .pure init
  | cons x xs ih =>
    refine .bind (h x (by simp) s (refl_of R s) init) fun _ s₁ h₁ hi => ?_
    exact ih hi fun y hy s₂ h₂ => h y (by simp [hy]) s₂ (trans_of R h₁ h₂)

/-- A loop, of which every round ensures something that later rounds do not undo. -/
theorem forM {xs : List α} {f : α → ExceptT Failure (StateM σ) PUnit} {P : α → σ → Prop}
    (stable : ∀ x s₁ s₂, R s₁ s₂ → P x s₁ → P x s₂)
    (h : ∀ x ∈ xs, ∀ s', R s s' → TryTerminates F R (f x) s' fun _ => P x) :
    TryTerminates F R (xs.forM f) s fun _ s' => ∀ x ∈ xs, P x s' := by
  induction xs generalizing s with
  | nil => exact .pure (by simp)
  | cons x xs ih =>
    refine .bind (h x (by simp) s (refl_of R s)) fun _ s₁ h₁ hx => ?_
    have hrest := @ih s₁ fun y hy s₂ h₂ => h y (by simp [hy]) s₂ (trans_of R h₁ h₂)
    refine hrest.mono fun _ s₂ h₂ hxs y hy => ?_
    rcases List.mem_cons.1 hy with rfl | hy
    · exact stable y s₁ s₂ h₂ hx
    · exact hxs y hy

/-- A loop, of whose rounds nothing is asked but that they keep to `R`. -/
theorem forM_any {xs : List α} {f : α → ExceptT Failure (StateM σ) PUnit}
    (h : ∀ x ∈ xs, ∀ s', R s s' → TryTerminates F R (f x) s' fun _ _ => True) :
    TryTerminates F R (xs.forM f) s fun _ _ => True :=
  forM_invariant (I := fun _ => True) trivial fun x hx s' h' _ => h x hx s' h'

end Preorder

end TryTerminates

/-! ## Steps that take fuel -/

/-- A state that is out of bounds stays so. -/
class Lasts (R : σ → σ → Prop) (Out : σ → Prop) : Prop where
  lasts : ∀ {s s'}, R s s' → Out s → Out s'

/-- A state that cannot be out of bounds stays so. -/
instance (R : σ → σ → Prop) : Lasts R fun _ => False where
  lasts _ h := h

/-- From the state `s`, with any fuel, the step keeps to `R`, and its answer satisfies `Q`. It
goes out of bounds again and again with ever more fuel, or it comes to an end that enough fuel does
not change. -/
structure Terminates (F : Failure → Prop) (R : σ → σ → Prop) (Out : σ → Prop)
    (m : Nat → ExceptT Failure (StateM σ) α) (s : σ) (Q : α → σ → Prop) : Prop where
  runs : ∀ n, Runs F R (m n) s Q
  ends : (∃ᶠ n in atTop, Out ((m n).run.run s).2) ∨
    ∃ r, r.1 ≠ .error .outOfFuel ∧ ∀ᶠ n in atTop, (m n).run.run s = r

namespace Terminates

variable {m m' : Nat → ExceptT Failure (StateM σ) α} {Q : α → σ → Prop}

theorem mono {Q' : α → σ → Prop} (h : Terminates F R Out m s Q)
    (hq : ∀ x s', R s s' → Q x s' → Q' x s') : Terminates F R Out m s Q' :=
  ⟨fun n => (h.runs n).mono hq, h.ends⟩

/-- Forgets the answer. -/
theorem any (h : Terminates F R Out m s Q) : Terminates F R Out m s fun _ _ => True :=
  h.mono fun _ _ _ _ => trivial

/-- Less is said of how the step fails. -/
theorem imp_fails {F' : Failure → Prop} (h : Terminates F R Out m s Q) (hf : ∀ e, F e → F' e) :
    Terminates F' R Out m s Q where
  runs n := ⟨(h.runs n).spec, fun he => ((h.runs n).fails he).imp_right (hf _)⟩
  ends := h.ends

/-- More is known of the step. -/
theorem and {R' : σ → σ → Prop} {Q' : α → σ → Prop} (h : Terminates F R Out m s Q)
    (h' : ∀ n, TrySpec R' (m n) s Q') :
    Terminates F R Out m s fun x s' => Q x s' ∧ R' s s' ∧ Q' x s' where
  runs n := ⟨⟨(h.runs n).spec.1, fun x hx => ⟨(h.runs n).spec.2 x hx, (h' n).1, (h' n).2 x hx⟩⟩,
    (h.runs n).fails⟩
  ends := h.ends

/-- A step that takes no fuel. -/
theorem of_tryTerminates {m : ExceptT Failure (StateM σ) α} (h : TryTerminates F R m s Q) :
    Terminates F R Out (fun _ => m) s Q where
  runs _ := h.1
  ends := Or.inr ⟨m.run.run s, h.2, .of_forall fun _ => rfl⟩

/-- A step that takes no fuel and has no bounds. -/
theorem tryTerminates {m : ExceptT Failure (StateM σ) α}
    (h : Terminates F R (fun _ => False) (fun _ => m) s Q) : TryTerminates F R m s Q := by
  refine ⟨h.runs 0, ?_⟩
  rcases h.ends with hout | ⟨r, hr, hrun⟩
  · simp at hout
  · obtain ⟨n, hn⟩ := hrun.exists
    intro hs
    refine hr ?_
    rw [← hn]
    exact hs

/-- If it stays in bounds, the step comes to an end, and fails as given by `F` only. -/
theorem settles (h : Terminates F R Out m s Q) (hin : ∀ n, ¬Out ((m n).run.run s).2) :
    ∃ r, (∀ᶠ n in atTop, (m n).run.run s = r) ∧ ∀ e, r.1 = .error e → F e := by
  rcases h.ends with hout | ⟨r, hr, hrun⟩
  · obtain ⟨n, hn⟩ := hout.exists
    exact absurd hn (hin n)
  · refine ⟨r, hrun, fun e he => ?_⟩
    obtain ⟨n, hn⟩ := hrun.exists
    rcases (h.runs n).fails ((congrArg Prod.fst hn).trans he) with rfl | hf
    · exact absurd he hr
    · exact hf

/-- With enough fuel, the step is another one. -/
theorem congr (h : Terminates F R Out m' s Q) (hm : ∀ᶠ n in atTop, m n = m' n)
    (runs : ∀ n, Runs F R (m n) s Q) : Terminates F R Out m s Q where
  runs := runs
  ends := by
    refine h.ends.imp (fun hout => ?_) ?_
    · refine (hout.and_eventually hm).mono ?_
      rintro n ⟨ho, heq⟩
      rw [heq]
      exact ho
    · rintro ⟨r, hr, hrun⟩
      refine ⟨r, hr, (hrun.and hm).mono ?_⟩
      rintro n ⟨hn, heq⟩
      rw [heq]
      exact hn

theorem get_bind {f : Nat → σ → ExceptT Failure (StateM σ) α}
    (h : Terminates F R Out (fun n => f n s) s Q) : Terminates F R Out (fun n => get >>= f n) s Q :=
  ⟨fun n => .get_bind (h.runs n), h.ends⟩

/-- Without bounds to keep, nothing has to come to an end. -/
theorem of_out [Lasts R Out] (ho : Out s) (runs : ∀ n, Runs F R (m n) s Q) :
    Terminates F R Out m s Q where
  runs := runs
  ends := Or.inl (Frequently.of_forall fun n => Lasts.lasts (runs n).spec.1 ho)

section Preorder

variable [IsPreorder σ R]

theorem pure {x : α} (hq : Q x s) :
    Terminates F R Out (fun _ => (Pure.pure x : ExceptT Failure (StateM σ) α)) s Q :=
  of_tryTerminates (.pure hq)

theorem modify_bind {f : σ → σ} {k : Nat → PUnit → ExceptT Failure (StateM σ) β}
    {Q : β → σ → Prop} (hr : R s (f s)) (h : Terminates F R Out (fun n => k n ⟨⟩) (f s) Q) :
    Terminates F R Out (fun n => MonadState.modifyGet (fun s => (⟨⟩, f s)) >>= k n) s Q :=
  ⟨fun n => .modify_bind hr (h.runs n), h.ends⟩

variable [Lasts R Out]

theorem bind {f : Nat → α → ExceptT Failure (StateM σ) β} {P : α → σ → Prop} {Q : β → σ → Prop}
    (hm : Terminates F R Out m s P)
    (hf : ∀ x s', R s s' → P x s' → Terminates F R Out (fun n => f n x) s' Q) :
    Terminates F R Out (fun n => m n >>= f n) s Q where
  runs n := .bind (hm.runs n) fun x s' h hx => (hf x s' h hx).runs n
  ends := by
    rcases hm.ends with hout | ⟨⟨x, s'⟩, hr, hrun⟩
    · refine Or.inl (hout.mono fun n ho => ?_)
      cases hx : ((m n).run.run s).1 with
      | error e =>
        rw [run_bind_error hx]
        exact ho
      | ok x =>
        -- The first part is out of bounds already, and what comes next stays so.
        rw [run_bind_ok hx]
        have hrest := (hf x _ (hm.runs n).spec.1 ((hm.runs n).spec.2 x hx)).runs n
        exact Lasts.lasts hrest.spec.1 ho
    · cases x with
      | error e =>
        refine Or.inr ⟨(.error e, s'), fun h => hr (by cases h; rfl), hrun.mono fun n hn => ?_⟩
        rw [run_bind_error (congrArg Prod.fst hn), hn]
      | ok x =>
        obtain ⟨n, hn⟩ := hrun.exists
        obtain ⟨h', hx⟩ := (hm.runs n).spec.of_run hn
        refine (hf x s' h' hx).ends.imp (fun hout => ?_) ?_
        · refine (hout.and_eventually hrun).mono ?_
          rintro n ⟨ho, hn⟩
          rw [run_bind_ok (congrArg Prod.fst hn), hn]
          exact ho
        · rintro ⟨r, hr, hrest⟩
          refine ⟨r, hr, (hrun.and hrest).mono ?_⟩
          rintro n ⟨hn, hn'⟩
          rw [run_bind_ok (congrArg Prod.fst hn), hn]
          exact hn'

/-- What comes next does not depend on the answer. -/
theorem seq {f : Nat → α → ExceptT Failure (StateM σ) β} {Q : β → σ → Prop}
    (hm : Terminates F R Out m s fun _ _ => True)
    (hf : ∀ x s', R s s' → Terminates F R Out (fun n => f n x) s' Q) :
    Terminates F R Out (fun n => m n >>= f n) s Q :=
  hm.bind fun x s' h _ => hf x s' h

theorem discard (h : Terminates F R Out m s fun _ _ => True) :
    Terminates F R Out (fun n => Functor.discard (m n)) s fun _ _ => True := by
  have heq : ∀ n, Functor.discard (m n) = m n >>= fun _ => Pure.pure () := fun n =>
    map_eq_pure_bind (m := ExceptT Failure (StateM σ)) _ _
  simp only [heq]
  exact h.seq fun _ _ _ => .pure trivial

/-- A loop over a list that keeps an invariant. -/
theorem forM_invariant {xs : List α} {f : Nat → α → ExceptT Failure (StateM σ) PUnit} {I : σ → Prop}
    (init : I s)
    (h : ∀ x ∈ xs, ∀ s', R s s' → I s' → Terminates F R Out (fun n => f n x) s'
      fun _ s'' => I s'') :
    Terminates F R Out (fun n => xs.forM (f n)) s fun _ s' => I s' := by
  induction xs generalizing s with
  | nil => exact .pure init
  | cons x xs ih =>
    refine .bind (f := fun n _ => xs.forM (f n)) (h x (by simp) s (refl_of R s) init) ?_
    intro _ s₁ h₁ hi
    exact ih hi fun y hy s₂ h₂ => h y (by simp [hy]) s₂ (trans_of R h₁ h₂)

/-- A loop, of whose rounds nothing is asked but that they keep to `R`. -/
theorem forM_any {xs : List α} {f : Nat → α → ExceptT Failure (StateM σ) PUnit}
    (h : ∀ x ∈ xs, ∀ s', R s s' → Terminates F R Out (fun n => f n x) s' fun _ _ => True) :
    Terminates F R Out (fun n => xs.forM (f n)) s fun _ _ => True :=
  forM_invariant (I := fun _ => True) trivial fun x hx s' h' _ => h x hx s' h'

/-- A loop that goes on as long as its rounds ask for it. Every round that does so, and stays in
bounds, makes the measure smaller. -/
theorem loop {γ : Type} [Preorder γ] [WellFoundedLT γ]
    {round : Nat → ExceptT Failure (StateM σ) Bool}
    {loop : Nat → Nat → ExceptT Failure (StateM σ) Unit} {I : σ → Prop} (measure : σ → γ)
    (hzero : ∀ n s, I s → Runs F R (loop n 0) s fun _ _ => True)
    (hsucc : ∀ n k, loop n (k + 1) = do if ← round n then loop n k)
    (hround : ∀ s, I s → Terminates F R Out round s fun more s' =>
      I s' ∧ (more = true → ¬Out s' → measure s' < measure s)) (init : I s) :
    Terminates F R Out (fun n => loop n n) s fun _ _ => True := by
  have runs : ∀ n k s, I s → Runs F R (loop n k) s fun _ _ => True := by
    intro n k
    induction k with
    | zero => exact hzero n
    | succ k ih =>
      intro s hi
      rw [hsucc]
      refine .bind ((hround s hi).runs n) fun more s' _ hi' => ?_
      split
      · exact ih s' hi'.1
      · exact .pure trivial
  -- After `j` rounds, `n - j` are left.
  have left : ∀ (c : γ) j s, measure s = c → I s →
      Terminates F R Out (fun n => loop n (n - j)) s fun _ _ => True := by
    intro c
    induction c using WellFoundedLT.induction with
    | ind c ih =>
      rintro j s rfl hi
      have hrest : Terminates F R Out (fun n => do if ← round n then loop n (n - (j + 1))) s
          fun _ _ => True := by
        refine .bind (hround s hi) fun more s' _ ⟨hi', hless⟩ => ?_
        cases more with
        | false => exact .pure trivial
        | true =>
          by_cases ho : Out s'
          · exact .of_out ho fun n => runs n _ s' hi'
          · exact ih _ (hless rfl ho) (j + 1) s' rfl hi'
      refine hrest.congr ?_ fun n => runs n _ s hi
      filter_upwards [eventually_ge_atTop (j + 1)] with n hn
      rw [show n - j = n - (j + 1) + 1 by omega, hsucc]
  exact left (measure s) 0 s rfl init

end Preorder

end Terminates

end PointsTo
