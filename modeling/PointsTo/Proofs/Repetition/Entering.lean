import PointsTo.Proofs.Repetition.Requests

/-!
# Entering methods is idempotent

A method that waits again is put in the queue again. When its turn comes it is dropped, since it has
been taken up the first time (`run_drain_of_built`). The first time, every method that waited took a
step of the loop, so the second time the fuel is enough.
-/

namespace PointsTo

open Builder (GrowsQuietly)

variable {s : Setting} {b b' : Builder} {f : FuncId} {cid : ContextId}

namespace Build

theorem enqueue_idempotentAt : TryIdempotentAt .asking (enqueue f cid) b fun _ _ => True := by
  intro _ b' hrun
  cases hrun
  refine ⟨(refl_of GrowsQuietly b).withPending _, ⟨[(f, cid)], rfl⟩, trivial, ?_⟩
  rintro c _ - ⟨asked, hasked, rfl⟩
  rw [← List.append_cancel_left hasked]
  rfl

/-- Afterwards the method has been taken up. What waited still waits. -/
theorem instantiate_growsQuietly (hs : s.KeepsLinks)
    (h : (instantiate s f cid).run.run b = (.ok (), b')) :
    b.GrowsQuietly b' ∧ b.pending <+: b'.pending ∧ (cid, f) ∈ b'.built := by
  by_cases hbuilt : (cid, f) ∈ b.built
  · rw [run_instantiate_of_built hbuilt] at h
    cases h
    exact ⟨refl_of GrowsQuietly b, List.prefix_rfl, hbuilt⟩
  · rw [run_instantiate_of_not_built hbuilt] at h
    obtain ⟨hrun, -⟩ := (layOutTaken_linkSpec hs).trySpec.of_run h
    exact ⟨trans_of GrowsQuietly (b.growsQuietly_takenUp (cid, f)) hrun.growsQuietly, hrun.pending,
      hrun.built ▸ List.mem_cons_self⟩

/-- The queue has been worked off, with fuel for at most `n` methods. -/
structure DrainedWithin (n : Nat) (b b' : Builder) : Prop where
  growsQuietly : b.GrowsQuietly b'
  empty : b'.pending = []
  fuel : b.pending.length ≤ n
  built : ∀ {f cid}, (f, cid) ∈ b.pending → (cid, f) ∈ b'.built

theorem drain_drainedWithin (hs : s.KeepsLinks) {n : Nat}
    (h : (drain s n).run.run b = (.ok (), b')) : DrainedWithin n b b' := by
  induction n generalizing b with
  | zero =>
    unfold drain at h
    rw [run_get_bind] at h
    split at h
    · cases h
    · rename_i hsome
      cases h
      have hempty : b'.pending = [] := by simpa using hsome
      exact ⟨refl_of GrowsQuietly b', hempty, by simp [hempty], by simp [hempty]⟩
  | succ n ih =>
    unfold drain at h
    rw [run_get_bind] at h
    split at h
    · rename_i hempty
      cases h
      exact ⟨refl_of GrowsQuietly b', hempty, by simp [hempty], by simp [hempty]⟩
    · rename_i g d rest hnext
      obtain ⟨_, _, hpop, hrest⟩ := TryGuarantees.of_bind h
      cases hpop
      obtain ⟨_, b₁, hone, hrest⟩ := TryGuarantees.of_bind hrest
      obtain ⟨h₁, hwaits, hbuilt⟩ := instantiate_growsQuietly hs hone
      have hlast := ih hrest
      refine ⟨trans_of GrowsQuietly h₁.of_withPending hlast.growsQuietly, hlast.empty,
        ?_, fun {f cid} hf => ?_⟩
      · rw [hnext, List.length_cons]
        exact Nat.succ_le_succ (hwaits.length_le.trans hlast.fuel)
      · rw [hnext] at hf
        rcases List.mem_cons.1 hf with heq | hf
        · cases heq
          exact hlast.growsQuietly.built hbuilt
        · exact hlast.built (hwaits.subset hf)

/-- Methods that have been taken up are dropped. -/
theorem run_drain_of_built {n : Nat} (hfuel : b.pending.length ≤ n)
    (hbuilt : ∀ {f cid}, (f, cid) ∈ b.pending → (cid, f) ∈ b.built) :
    (drain s n).run.run b = (.ok (), { b with pending := [] }) := by
  have done : ∀ {b : Builder}, b.pending = [] → { b with pending := [] } = b :=
    fun hempty => by rw [← hempty]
  induction n generalizing b with
  | zero =>
    have hempty : b.pending = [] := List.length_eq_zero_iff.1 (Nat.le_zero.1 hfuel)
    unfold drain
    rw [run_get_bind, done hempty, hempty]
    rfl
  | succ n ih =>
    unfold drain
    rw [run_get_bind]
    cases hnext : b.pending with
    | nil =>
      rw [done hnext]
      rfl
    | cons x rest =>
      obtain ⟨f, cid⟩ := x
      have hdrop : (instantiate s f cid).run.run { b with pending := rest } =
          (.ok (), { b with pending := rest }) :=
        run_instantiate_of_built (b := { b with pending := rest })
          (hbuilt (hnext ▸ List.mem_cons_self))
      have hpop : (modify fun b => { b with pending := rest } : TryBuild Unit).run.run b =
          (.ok (), { b with pending := rest }) := rfl
      dsimp only
      rw [run_bind_ok (congrArg Prod.fst hpop), hpop, run_bind_ok (congrArg Prod.fst hdrop), hdrop]
      refine ih ?_ fun {f cid} hf => hbuilt (hnext ▸ List.mem_cons_of_mem _ hf)
      rw [hnext] at hfuel
      exact Nat.le_of_succ_le_succ hfuel

theorem enterNow_idempotentAt (hs : s.KeepsLinks) :
    TryIdempotentAt .draining (enterNow s f cid) b fun _ _ => True := by
  intro _ b' hrun
  obtain ⟨_, b₁, hqueue, hdrain⟩ := TryGuarantees.of_bind hrun
  cases hqueue
  have h := drain_drainedWithin hs hdrain
  refine ⟨trans_of GrowsQuietly ((refl_of GrowsQuietly b).withPending _) h.growsQuietly,
    Or.inr h.empty, trivial, ?_⟩
  rintro c _ hc ⟨rfl, hpending⟩
  rw [h.empty, or_self] at hpending
  have hqueue : (enqueue f cid).run.run c = (.ok (), { c with pending := [(f, cid)] }) := by
    show (Except.ok (), { c with pending := c.pending ++ [(f, cid)] }) = _
    rw [hpending]
    rfl
  unfold enterNow
  rw [run_bind_ok (congrArg Prod.fst hqueue), hqueue, run_drain_of_built ?_ ?_, hpending]
  · exact (Nat.le_add_left _ _).trans ((List.length_append ..) ▸ h.fuel)
  · intro f' cid' hf
    exact hc.built (h.built (List.mem_append_right _ hf))

end Build

end PointsTo
