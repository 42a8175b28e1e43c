import PointsTo.Failure
import PointsTo.Proofs.Effects

/-!
# Steps done twice

A step is done from two states that are related, and we ask whether it answers the same and leads to
related states again (`Respects`). If it does so, the two runs cannot be told apart by what the
relation leaves open.

Steps that may fail have to fail alike. They may be two different steps here, since loops are
bounded and the bounds may differ: then one of them may run out of fuel where the other one goes on
(`TryRespects`). A *strict* comparison does not allow that.
-/

namespace PointsTo

variable {σ α β γ : Type} {R : σ → σ → Prop} {s s' : σ}

/-- The steps answer the same, and lead to related states. -/
def Match (R : σ → σ → Prop) (m m' : StateM σ α) (s s' : σ) : Prop :=
  (m.run s).1 = (m'.run s').1 ∧ R (m.run s).2 (m'.run s').2

/-- From related states, the step answers the same and leads to related states. -/
def Respects (R : σ → σ → Prop) (m : StateM σ α) : Prop :=
  ∀ ⦃s s'⦄, R s s' → Match R m m s s'

theorem Match.bind {m m' : StateM σ α} {f f' : α → StateM σ β} (hm : Match R m m' s s')
    (hf : ∀ x t t', R t t' → Match R (f x) (f' x) t t') : Match R (m >>= f) (m' >>= f') s s' := by
  obtain ⟨heq, h⟩ := hm
  have hrest : Match R (f (m.run s).1) (f' (m'.run s').1) (m.run s).2 (m'.run s').2 :=
    heq ▸ hf (m.run s).1 _ _ h
  exact hrest

namespace Respects

variable {m : StateM σ α}

theorem apply (hm : Respects R m) (h : R s s') : Match R m m s s' :=
  hm h

theorem pure {x : α} : Respects R (Pure.pure x : StateM σ α) :=
  fun _ _ h => ⟨rfl, h⟩

theorem bind {f : α → StateM σ β} (hm : Respects R m) (hf : ∀ x, Respects R (f x)) :
    Respects R (m >>= f) :=
  fun _ _ h => (hm h).bind fun x _ _ h' => hf x h'

theorem map {f : α → β} (hm : Respects R m) : Respects R (f <$> m) :=
  fun _ _ h => ⟨congrArg f (hm h).1, (hm h).2⟩

theorem discard (hm : Respects R m) : Respects R (Functor.discard m) :=
  hm.map

/-- Reading the state is allowed if what follows is the same for related states. -/
theorem get_bind {f : σ → StateM σ α} (h : ∀ s s', R s s' → Match R (f s) (f s') s s') :
    Respects R (get >>= f) :=
  fun s s' hr => h s s' hr

theorem modify {f : σ → σ} (h : ∀ s s', R s s' → R (f s) (f s')) : Respects R (modify f) :=
  fun s s' hr => ⟨rfl, h s s' hr⟩

theorem modifyGet {f : σ → α × σ}
    (h : ∀ s s', R s s' → (f s).1 = (f s').1 ∧ R (f s).2 (f s').2) : Respects R (modifyGet f) :=
  fun s s' hr => h s s' hr

theorem forM {xs : List α} {f : α → StateM σ PUnit} (h : ∀ x ∈ xs, Respects R (f x)) :
    Respects R (xs.forM f) := by
  induction xs with
  | nil => exact .pure
  | cons x xs ih => exact .bind (h x (by simp)) fun _ => ih fun y hy => h y (by simp [hy])

end Respects

/-! ## Steps that may fail -/

/-- The step fails for want of fuel. -/
def Starves (m : ExceptT Failure (StateM σ) α) (s : σ) : Prop :=
  (m.run.run s).1 = .error .outOfFuel

/-- The steps match, or one of them starves, unless the comparison is strict. -/
def TryMatch (strict : Prop) (R : σ → σ → Prop) (m m' : ExceptT Failure (StateM σ) α) (s s' : σ) :
    Prop :=
  Match R m.run m'.run s s' ∨ ¬strict ∧ (Starves m s ∨ Starves m' s')

/-- From related states, the steps match. -/
def TryRespects (strict : Prop) (R : σ → σ → Prop) (m m' : ExceptT Failure (StateM σ) α) : Prop :=
  ∀ ⦃s s'⦄, R s s' → TryMatch strict R m m' s s'

variable {strict : Prop}

theorem run_bind_ok {m : ExceptT Failure (StateM σ) α}
    {f : α → ExceptT Failure (StateM σ) β} {x : α}
    (h : (m.run.run s).1 = .ok x) : (m >>= f).run.run s = (f x).run.run (m.run.run s).2 := by
  have hrun : (m >>= f).run.run s = (ExceptT.bindCont f (m.run.run s).1).run (m.run.run s).2 := rfl
  rw [hrun, h]
  rfl

theorem run_bind_error {m : ExceptT Failure (StateM σ) α} {f : α → ExceptT Failure (StateM σ) β}
    {e : Failure} (h : (m.run.run s).1 = .error e) :
    (m >>= f).run.run s = (.error e, (m.run.run s).2) := by
  have hrun : (m >>= f).run.run s = (ExceptT.bindCont f (m.run.run s).1).run (m.run.run s).2 := rfl
  rw [hrun, h]
  rfl

theorem run_get_bind {f : σ → ExceptT Failure (StateM σ) α} :
    (get >>= f).run.run s = (f s).run.run s :=
  rfl

theorem Starves.bind {m : ExceptT Failure (StateM σ) α} (h : Starves m s)
    (f : α → ExceptT Failure (StateM σ) β) : Starves (m >>= f) s :=
  congrArg Prod.fst (run_bind_error h)

theorem Starves.of_bind {m : ExceptT Failure (StateM σ) α} {f : α → ExceptT Failure (StateM σ) β}
    {x : α} (hx : (m.run.run s).1 = .ok x) (h : Starves (f x) (m.run.run s).2) :
    Starves (m >>= f) s :=
  (congrArg Prod.fst (run_bind_ok hx)).trans h

namespace TryMatch

variable {m m' : ExceptT Failure (StateM σ) α} {f f' : α → ExceptT Failure (StateM σ) β}

/-- Both fail alike, and what follows is not done. -/
theorem of_error {e : Failure} (hm : (m.run.run s).1 = .error e)
    (hm' : (m'.run.run s').1 = .error e)
    (h : R (m.run.run s).2 (m'.run.run s').2) : TryMatch strict R (m >>= f) (m' >>= f') s s' := by
  refine Or.inl ?_
  unfold Match
  rw [run_bind_error hm, run_bind_error hm']
  exact ⟨rfl, h⟩

/-- Both answer the same, and what follows matches. -/
theorem of_ok {x : α} (hm : (m.run.run s).1 = .ok x) (hm' : (m'.run.run s').1 = .ok x)
    (h : TryMatch strict R (f x) (f' x) (m.run.run s).2 (m'.run.run s').2) :
    TryMatch strict R (m >>= f) (m' >>= f') s s' := by
  rcases h with h | ⟨hs, h | h⟩
  · refine Or.inl ?_
    unfold Match
    rw [run_bind_ok hm, run_bind_ok hm']
    exact h
  · exact Or.inr ⟨hs, Or.inl (.of_bind hm h)⟩
  · exact Or.inr ⟨hs, Or.inr (.of_bind hm' h)⟩

theorem of_starves (hs : ¬strict) (h : Starves m s ∨ Starves m' s') :
    TryMatch strict R (m >>= f) (m' >>= f') s s' :=
  Or.inr ⟨hs, h.imp (fun h => h.bind f) (fun h => h.bind f')⟩

theorem bind (hm : TryMatch strict R m m' s s')
    (hf : ∀ x t t', R t t' → TryMatch strict R (f x) (f' x) t t') :
    TryMatch strict R (m >>= f) (m' >>= f') s s' := by
  rcases hm with ⟨heq, h⟩ | ⟨hs, h⟩
  · cases hx : (m.run.run s).1 with
    | error e => exact of_error hx (heq ▸ hx) h
    | ok x => exact of_ok hx (heq ▸ hx) (hf x _ _ h)
  · exact of_starves hs h

/-- If both succeed, neither starves. -/
theorem both_ok {x x' : α} {t t' : σ} (h : TryMatch strict R m m' s s')
    (hm : m.run.run s = (.ok x, t)) (hm' : m'.run.run s' = (.ok x', t')) : x' = x ∧ R t t' := by
  rcases h with ⟨heq, h⟩ | ⟨-, hstarve | hstarve⟩
  · rw [hm, hm'] at heq h
    cases heq
    exact ⟨rfl, h⟩
  · unfold Starves at hstarve
    rw [hm] at hstarve
    cases hstarve
  · unfold Starves at hstarve
    rw [hm'] at hstarve
    cases hstarve

end TryMatch

namespace TryRespects

variable {m m' : ExceptT Failure (StateM σ) α}

theorem apply (hm : TryRespects strict R m m') (h : R s s') : TryMatch strict R m m' s s' :=
  hm h

theorem pure {x : α} :
    TryRespects strict R (Pure.pure x : ExceptT Failure (StateM σ) α) (Pure.pure x) :=
  fun _ _ h => Or.inl ⟨rfl, h⟩

theorem throw {e : Failure} :
    TryRespects strict R (throw e : ExceptT Failure (StateM σ) α) (throw e) :=
  fun _ _ h => Or.inl ⟨rfl, h⟩

theorem lift {m : StateM σ α} (h : Respects R m) :
    TryRespects strict R (liftM m : ExceptT Failure (StateM σ) α) (liftM m) :=
  fun _ _ hr => Or.inl ⟨congrArg Except.ok (h hr).1, (h hr).2⟩

theorem bind {f f' : α → ExceptT Failure (StateM σ) β} (hm : TryRespects strict R m m')
    (hf : ∀ x, TryRespects strict R (f x) (f' x)) : TryRespects strict R (m >>= f) (m' >>= f') :=
  fun _ _ h => (hm h).bind fun x _ _ h' => hf x h'

theorem map {f : α → β} (hm : TryRespects strict R m m') :
    TryRespects strict R (f <$> m) (f <$> m') := by
  rw [map_eq_pure_bind, map_eq_pure_bind]
  exact hm.bind fun _ => .pure

theorem discard (hm : TryRespects strict R m m') :
    TryRespects strict R (Functor.discard m) (Functor.discard m') :=
  hm.map

theorem get_bind {f f' : σ → ExceptT Failure (StateM σ) α}
    (h : ∀ s s', R s s' → TryMatch strict R (f s) (f' s') s s') :
    TryRespects strict R (get >>= f) (get >>= f') :=
  fun s s' hr => h s s' hr

theorem modify {f : σ → σ} (h : ∀ s s', R s s' → R (f s) (f s')) :
    TryRespects strict R (modify f : ExceptT Failure (StateM σ) Unit) (modify f) :=
  fun s s' hr => Or.inl ⟨rfl, h s s' hr⟩

theorem modifyGet {f : σ → α × σ}
    (h : ∀ s s', R s s' → (f s).1 = (f s').1 ∧ R (f s).2 (f s').2) : TryRespects strict R
      (modifyGet f : ExceptT Failure (StateM σ) α) (modifyGet f) :=
  fun s s' hr => Or.inl ⟨congrArg Except.ok (h s s' hr).1, (h s s' hr).2⟩

/-- What follows does not depend on the answer, so that may differ. -/
theorem seq {m : StateM σ γ} {f f' : γ → ExceptT Failure (StateM σ) β}
    (hm : ∀ s s', R s s' → R (m.run s).2 (m.run s').2)
    (hf : ∀ x x', TryRespects strict R (f x) (f' x')) :
    TryRespects strict R ((liftM m : ExceptT Failure (StateM σ) γ) >>= f)
      ((liftM m : ExceptT Failure (StateM σ) γ) >>= f') :=
  fun s s' hr => hf (m.run s).1 (m.run s').1 (hm s s' hr)

theorem forM {xs : List α} {f f' : α → ExceptT Failure (StateM σ) PUnit}
    (h : ∀ x ∈ xs, TryRespects strict R (f x) (f' x)) :
    TryRespects strict R (xs.forM f) (xs.forM f') := by
  induction xs with
  | nil => exact .pure
  | cons x xs ih => exact .bind (h x (by simp)) fun _ => ih fun y hy => h y (by simp [hy])

end TryRespects

/-! ## Loops -/

/-- A bounded loop that stops as soon as there is nothing to do. -/
structure StopsWhen (Idle : σ → Prop) (loop : Nat → ExceptT Failure (StateM σ) Unit) : Prop where
  stop : ∀ {s} n, Idle s → (loop n).run.run s = (.ok (), s)
  starve : ∀ {s}, ¬Idle s → (loop 0).run.run s = (.error .outOfFuel, s)

/-- Two loops match if their rounds do. With other bounds, one of them may be cut short where the
other one goes on. -/
theorem StopsWhen.respects {Idle : σ → Prop} {loop loop' : Nat → ExceptT Failure (StateM σ) Unit}
    (hloop : StopsWhen Idle loop) (hloop' : StopsWhen Idle loop')
    (hidle : ∀ s s', R s s' → (Idle s ↔ Idle s'))
    (hround : ∀ n n', TryRespects strict R (loop n) (loop' n') →
      TryRespects strict R (loop (n + 1)) (loop' (n' + 1)))
    (n n' : Nat) (hn : strict → n' = n) : TryRespects strict R (loop n) (loop' n') := by
  have hstop : ∀ {n n' s s'}, R s s' → Idle s → TryMatch strict R (loop n) (loop' n') s s' := by
    intro n n' s s' h hi
    refine Or.inl ?_
    unfold Match
    rw [hloop.stop n hi, hloop'.stop n' ((hidle s s' h).1 hi)]
    exact ⟨rfl, h⟩
  induction n generalizing n' with
  | zero =>
    intro s s' h
    by_cases hi : Idle s
    · exact hstop h hi
    · cases n' with
      | zero =>
        refine Or.inl ?_
        unfold Match
        rw [hloop.starve hi, hloop'.starve fun hi' => hi ((hidle s s' h).2 hi')]
        exact ⟨rfl, h⟩
      | succ n' =>
        refine Or.inr ⟨fun hstrict => Nat.succ_ne_zero n' (hn hstrict), Or.inl ?_⟩
        exact congrArg Prod.fst (hloop.starve hi)
  | succ n ih =>
    cases n' with
    | zero =>
      intro s s' h
      by_cases hi : Idle s
      · exact hstop h hi
      · refine Or.inr ⟨fun hstrict => Nat.succ_ne_zero n (hn hstrict).symm, Or.inr ?_⟩
        exact congrArg Prod.fst (hloop'.starve fun hi' => hi ((hidle s s' h).2 hi'))
    | succ n' => exact hround n n' (ih n' fun hstrict => Nat.succ.inj (hn hstrict))

end PointsTo
