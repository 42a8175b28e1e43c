import PointsTo.Proofs.Actions.Layout
import PointsTo.Proofs.Links.Completeness

/-!
# What a failed layout leaves behind

A method counts as laid out from the moment it is taken up, and a failure does not take that back.
So a request that fails leaves a method that counts as laid out although its layout failed, and
asking for it once more does nothing and succeeds.
-/

namespace PointsTo.Build

open Builder (Actions)

variable {s : Setting} {b b' : Builder} {f : FuncId} {cid : ContextId} {e : Failure}

/-! ## One method -/

/-- However it ends, the method counts as laid out then, and so does what did before. -/
theorem built_instantiate (hs : s.ByActions) (b : Builder) (f : FuncId) (cid : ContextId) :
    (cid, f) :: b.built ⊆ ((instantiate s f cid).run.run b).2.built := by
  by_cases hbuilt : (cid, f) ∈ b.built
  · rw [run_instantiate_of_built hbuilt]
    exact List.cons_subset.2 ⟨hbuilt, List.Subset.refl _⟩
  · rw [run_instantiate_of_not_built hbuilt]
    intro x hx
    exact ((layOutTaken_actions hs List.mem_cons_self).1).extends.built hx

/-- A layout that fails has not been done before. -/
theorem not_built_of_failed (h : ((instantiate s f cid).run.run b).1 = .error e) :
    (cid, f) ∉ b.built := by
  intro hbuilt
  rw [run_instantiate_of_built hbuilt] at h
  cases h

/-! ## The queue -/

/-- The layout of a method failed, somewhere on the way from `b` to `b'`. -/
def Failed (s : Setting) (b : Builder) (e : Failure) (b' : Builder) (f : FuncId)
    (cid : ContextId) : Prop :=
  ∃ b₁, b.built ⊆ b₁.built ∧ (instantiate s f cid).run.run b₁ = (.error e, b')

theorem Failed.not_built (h : Failed s b e b' f cid) : (cid, f) ∉ b.built := by
  obtain ⟨b₁, hb, hrun⟩ := h
  exact fun hbuilt => not_built_of_failed (congrArg Prod.fst hrun) (hb hbuilt)

theorem Failed.built (hs : s.ByActions) (h : Failed s b e b' f cid) : (cid, f) ∈ b'.built := by
  obtain ⟨b₁, -, hrun⟩ := h
  have hbuilt := built_instantiate hs b₁ f cid List.mem_cons_self
  rwa [hrun] at hbuilt

theorem run_drain_of_next {n : Nat} {rest : List (FuncId × ContextId)}
    (hnext : b.pending = (f, cid) :: rest) : (drain s (n + 1)).run.run b =
      (instantiate s f cid >>= fun _ => drain s n).run.run { b with pending := rest } := by
  rw [drain, run_get_bind, hnext]
  rfl

/-- If the queue cannot be worked off, it is because of a method in it. The first one counts as laid
out in any case. -/
theorem drain_failed (hs : s.ByActions) (n : Nat)
    (h : (drain s n).run.run b = (.error e, b')) (he : e ≠ .outOfFuel) :
    (∃ g k, Failed s b e b' g k) ∧
      ∀ f cid rest, b.pending = (f, cid) :: rest → (cid, f) ∈ b'.built := by
  induction n generalizing b with
  | zero =>
    rw [drain, run_get_bind] at h
    split at h
    · cases h
      exact absurd rfl he
    · cases h
  | succ n ih =>
    cases hpending : b.pending with
    | nil =>
      rw [drain, run_get_bind, hpending] at h
      cases h
    | cons next rest =>
      obtain ⟨f, cid⟩ := next
      rw [run_drain_of_next hpending] at h
      generalize hb : ({ b with pending := rest } : Builder) = b₀ at h
      have hstep := built_instantiate hs b₀ f cid
      have hbuilt : b.built = b₀.built := hb ▸ rfl
      -- Either this layout has failed, or one of those that come after it.
      cases hr : ((instantiate s f cid).run.run b₀).1 with
      | error e' =>
        rw [run_bind_error hr] at h
        cases h
        refine ⟨⟨f, cid, b₀, hbuilt ▸ List.Subset.refl _, Prod.ext hr rfl⟩, ?_⟩
        rintro f' cid' rest' ⟨⟩
        exact hstep List.mem_cons_self
      | ok _ =>
        rw [run_bind_ok hr] at h
        generalize ((instantiate s f cid).run.run b₀).2 = b₂ at h hstep
        obtain ⟨⟨g, k, b₁, hsub, hrun⟩, -⟩ := ih h
        refine ⟨⟨g, k, b₁, fun x hx => ?_, hrun⟩, ?_⟩
        · exact hsub (hstep (List.mem_cons_of_mem _ (hbuilt ▸ hx)))
        · rintro f' cid' rest' ⟨⟩
          have hdrain := (drain_actions (b := b₂) hs n).1
          rw [show (drain s n).run.run b₂ = _ from h] at hdrain
          exact hdrain.extends.built (hstep List.mem_cons_self)

/-! ## Requests -/

/-- A request for what counts as laid out succeeds, and changes nothing. -/
theorem enterNow_of_built (hfuel : s.fuel ≠ 0) (hempty : b.pending = []) (h : (cid, f) ∈ b.built) :
    (enterNow s f cid).run.run b = (.ok (), b) := by
  obtain ⟨n, hn⟩ := Nat.exists_eq_succ_of_ne_zero hfuel
  have hrun : (enterNow s f cid).run.run b =
      (drain s s.fuel).run.run { b with pending := b.pending ++ [(f, cid)] } := rfl
  have hsame : ({ b with pending := [] } : Builder) = b := hempty ▸ rfl
  have hdone := run_instantiate_of_built (s := s) h
  rw [hrun, hn, run_drain_of_next (by rw [hempty]; rfl)]
  show (instantiate s f cid >>= fun _ => drain s n).run.run { b with pending := [] } = _
  rw [hsame, run_bind_ok (congrArg Prod.fst hdone), hdone]
  -- Nothing else waits, however much fuel is left.
  cases n with
  | zero => rw [drain, run_get_bind, hempty]; rfl
  | succ n => rw [drain, run_get_bind, hempty]; rfl

/-- A request fails, and not because the fuel ends. Then there is a method whose layout has failed
with that error, for the first time, and it counts as laid out and is listed as reached. So does
what was asked for, unless something else was waiting already. Whenever either is asked for again,
once nothing waits, the answer is a success and nothing is done. -/
theorem failures_remembered (hs : s.IsStandard)
    (h : (enterNow s f cid).run.run b = (.error e, b')) (he : e ≠ .outOfFuel) :
    (∃ g k, Failed s b e b' g k ∧ (k, g) ∉ b.built ∧ (k, g) ∈ b'.built ∧ g ∈ b'.reached ∧
      ∀ b₁, b'.built ⊆ b₁.built → b₁.pending = [] →
        (enterNow s g k).run.run b₁ = (.ok (), b₁)) ∧
    (b.pending = [] → (cid, f) ∈ b'.built ∧
      ∀ b₁, b'.built ⊆ b₁.built → b₁.pending = [] →
        (enterNow s f cid).run.run b₁ = (.ok (), b₁)) := by
  have hgoes := hs.byActions
  have hdrain : (drain s s.fuel).run.run { b with pending := b.pending ++ [(f, cid)] } =
      (.error e, b') := h
  have hfuel : s.fuel ≠ 0 := by
    intro hzero
    rw [hzero, drain, run_get_bind, if_pos (by simp)] at hdrain
    cases hdrain
    exact he rfl
  have again : ∀ {g k}, (k, g) ∈ b'.built → ∀ b₁ : Builder, b'.built ⊆ b₁.built → b₁.pending = [] →
      (enterNow s g k).run.run b₁ = (.ok (), b₁) :=
    fun hbuilt _ hsub hempty => enterNow_of_built hfuel hempty (hsub hbuilt)
  obtain ⟨⟨g, k, hfailed⟩, hfirst⟩ := drain_failed hgoes s.fuel hdrain he
  have hbuilt : (k, g) ∈ b'.built := Failed.built hgoes hfailed
  refine ⟨⟨g, k, hfailed, Failed.not_built hfailed, hbuilt, ?_, again hbuilt⟩, fun hempty => ?_⟩
  · exact Ascending.mem_ofList.2 (List.mem_map.2 ⟨(k, g), hbuilt, rfl⟩)
  · have hasked : (cid, f) ∈ b'.built := hfirst f cid [] (by rw [hempty]; rfl)
    exact ⟨hasked, again hasked⟩

namespace Sample

open Program Builder.Sample Analysis.Sample

/-- `f()` in `main`, where `f` does `1 = x`. -/
def misplaced : Program :=
  let (_, p) := (addFile {} file false).2.addFunction file "f"
  let d := p.openBody main
  let (_, d) := d.call none { kind := .named, method := beside, base := none, args := [] }
  let (one, d) := (d.close.openBody beside).constant "1" (.primitive "number")
  let (x, d) := d.localVar "x" .any
  (d.assign one x).2.close

/-- After the request for a method. -/
def asked (f : FuncId) (b : Builder) : Except Failure Unit × Builder :=
  (enterNow (setting misplaced) f Context.root).run.run b

/-- The failure of the assignment. -/
def stuck : Failure := .nonLvalue 1 (.constant (.primitive "number") "1")

end Sample

open Sample Builder.Sample Analysis.Sample

/-- `main` cannot be laid out, as `f` cannot be summarised. It counts as laid out all the same. -/
theorem failures_remembered_misplaced :
    (asked 0 (empty misplaced main)).1 = .error stuck ∧
      (Context.root, 0) ∈ (asked 0 (empty misplaced main)).2.built ∧
      asked 0 (asked 0 (empty misplaced main)).2 =
        (.ok (), (asked 0 (empty misplaced main)).2) := by
  obtain ⟨hfails, hbefore, hafter⟩ : (asked 0 (empty misplaced main)).1 = .error stuck ∧
      (empty misplaced main).pending = [] ∧ (asked 0 (empty misplaced main)).2.pending = [] := by
    decide +kernel
  have hrun : (enterNow (setting misplaced) 0 Context.root).run.run (empty misplaced main) =
      (.error stuck, (asked 0 (empty misplaced main)).2) := Prod.ext hfails rfl
  have hstandard : (setting misplaced).IsStandard := rfl
  obtain ⟨-, hasked⟩ := failures_remembered hstandard hrun (by decide)
  obtain ⟨hbuilt, hagain⟩ := hasked hbefore
  exact ⟨hfails, hbuilt, hagain _ (List.Subset.refl _) hafter⟩

/-- What fails is remembered as done: the layout of `f` fails, `f` is listed as reached, and the
second request succeeds. -/
theorem failures_not_forgotten : (empty misplaced main).pending = [] ∧
    (Context.root, 1) ∉ (empty misplaced main).built ∧
    (asked 1 (empty misplaced main)).1 = .error stuck ∧
    (Context.root, 1) ∈ (asked 1 (empty misplaced main)).2.built ∧
    (asked 1 (empty misplaced main)).2.reached = [1] ∧
    (asked 1 (asked 1 (empty misplaced main)).2).1 = .ok () := by
  decide +kernel

end PointsTo.Build
