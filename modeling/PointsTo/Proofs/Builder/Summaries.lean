import PointsTo.Proofs.Builder.Nodes
import PointsTo.Proofs.Pag.Summary

/-!
# Summaries are sound

Statement by statement, a summary only gets moves that are sound, and it keeps the calls that it has
(`Summarizer.Grows`). A statement that makes a call which waits for a receiver is recorded as one,
since static sites are for calls by name only.
-/

namespace PointsTo

/-- A summary in the making later on. -/
structure Summarizer.Grows (p : Program) (s s' : Summarizer) : Prop where
  edges : ∀ e ∈ s'.summary.edges, e ∈ s.summary.edges ∨ e.Sound p
  dynamicCalls : ∀ d ∈ s.summary.dynamicCalls, d ∈ s'.summary.dynamicCalls
  unknownCalls : ∀ d ∈ s.summary.unknownCalls, d ∈ s'.summary.unknownCalls

instance (p : Program) : IsPreorder Summarizer (Summarizer.Grows p) where
  refl _ := ⟨fun _ he => Or.inl he, fun _ hd => hd, fun _ hd => hd⟩
  trans _ _ _ h h' := {
    edges := fun e he => by
      rcases h'.edges e he with he | he
      · exact h.edges e he
      · exact Or.inr he
    dynamicCalls := fun d hd => h'.dynamicCalls d (h.dynamicCalls d hd)
    unknownCalls := fun d hd => h'.unknownCalls d (h.unknownCalls d hd) }

namespace Summarize

open Summarizer (Grows)

variable {p : Program} {g : CallGraph} {s : Summarizer}

/-! ## Moves -/

theorem addEdge_spec {kind : EdgeKind} {src dst : Entity} {stmt : StmtId} (hs : src.IsPlain)
    (hd : dst.IsPlain) (ho : kind = .address → src.IsObject p) :
    TrySpec (Grows p) (change fun s => s.addEdge kind src dst stmt) s fun _ _ => True := by
  refine .modify ⟨fun e he => ?_, fun _ h => h, fun _ h => h⟩ trivial
  rcases List.mem_append.1 he with he | he
  · exact Or.inl he
  · cases List.mem_singleton.1 he
    exact Or.inr ⟨hs, hd, ho⟩

/-- A change that adds neither moves nor waiting calls. -/
theorem change_spec {f : Summary → Summary} (he : (f s.summary).edges = s.summary.edges)
    (hd : (f s.summary).dynamicCalls = s.summary.dynamicCalls)
    (hu : (f s.summary).unknownCalls = s.summary.unknownCalls) :
    TrySpec (Grows p) (change f) s fun _ _ => True := by
  refine .modify ⟨fun e h => ?_, fun d h => ?_, fun d h => ?_⟩ trivial
  · exact Or.inl (he ▸ h)
  · exact hd ▸ h
  · exact hu ▸ h

theorem canonical_spec {base access : ValueId} {key : FieldKey} :
    TrySpec (Grows p) (canonical base key access) s fun e _ => ∃ v, e = .value v := by
  unfold canonical
  refine .get_bind ?_
  split
  · exact .pure ⟨_, rfl⟩
  · refine .modify_bind ⟨fun e h => Or.inl h, fun _ h => h, fun _ h => h⟩ ?_
    exact .pure ⟨_, rfl⟩

theorem entityOf_isObject {v : ValueId} (h : (p.value? v).any Value.isAllocation = true) :
    (Build.entityOf p v).IsObject p := by
  unfold Build.entityOf
  split
  · trivial
  · rename_i hv
    simp [hv, Value.isAllocation] at h
  · exact h

/-- The move that reads a value starts from a plain entity, and from an object if it is to. -/
theorem reading_spec {right : ValueId} :
    TrySpec (Grows p) (reading p right) s fun move _ => ∀ kind src, move = some (kind, src) →
      src.IsPlain ∧ (kind = .address → src.IsObject p) := by
  have plain := Build.entityOf_isPlain p right
  unfold reading
  cases hv : p.value? right with
  | none => exact .pure (by rintro _ _ ⟨⟩)
  | some value =>
    cases value with
    | newObject | newArray | functionRef | globalThis =>
      refine .pure ?_
      rintro _ _ ⟨⟩
      exact ⟨plain, fun _ => entityOf_isObject (by rw [hv]; rfl)⟩
    | localVar | param | thisRef | captured | staticRef =>
      refine .pure ?_
      rintro _ _ ⟨⟩
      exact ⟨plain, (nomatch ·)⟩
    | cast op =>
      refine .pure ?_
      intro kind src h
      split at h
      · cases h
        exact ⟨trivial, (nomatch ·)⟩
      · cases h
    | fieldRef | elementRef =>
      refine .bind canonical_spec fun e s₁ _ he => .pure ?_
      obtain ⟨v, rfl⟩ := he
      rintro _ _ ⟨⟩
      exact ⟨trivial, (nomatch ·)⟩
    | constant | compute | invoke => exact .pure (by rintro _ _ ⟨⟩)

theorem assign_spec {stmt : StmtId} {left right : ValueId} :
    TrySpec (Grows p) (assign p stmt left right) s fun _ _ => True := by
  -- A write to a field of an object, under whichever reference stands for it.
  have write : ∀ base key, TrySpec (Grows p) (do
      if p.isLocal right then
        let dst ← canonical base key left
        change fun s => s.addEdge .write (.value right) dst stmt) s fun _ _ => True := by
    intro base key
    split
    · refine .bind canonical_spec fun e s₁ _ he => ?_
      obtain ⟨v, rfl⟩ := he
      exact addEdge_spec trivial trivial (nomatch ·)
    · exact .pure trivial
  unfold assign
  cases hv : p.value? left with
  | none => exact .pure trivial
  | some value =>
    cases value with
    | localVar =>
      refine .bind reading_spec fun move s₁ _ hmove => ?_
      split
      · rename_i kind src
        obtain ⟨hplain, hobj⟩ := hmove kind src rfl
        exact addEdge_spec hplain trivial hobj
      · exact .pure trivial
    | fieldRef base field => exact write base (.ofSig field)
    | elementRef base => exact write base .element
    | staticRef field =>
      dsimp only
      split
      · exact addEdge_spec trivial trivial (nomatch ·)
      · split
        · rename_i ha
          exact addEdge_spec (Build.entityOf_isPlain p right) trivial fun _ => entityOf_isObject ha
        · exact .pure trivial
    | captured => exact .pure trivial
    | constant | newObject | newArray | functionRef | globalThis | param | thisRef | cast | compute
    | invoke => exact .throw

/-! ## Calls -/

/-- If the statement makes a call that waits for a receiver, the summary has it. -/
def Recorded (p : Program) (g : CallGraph) (stmt : StmtId) (s : Summarizer) : Prop :=
  ∀ i, p.invokeOf? stmt = some i → i.kind ≠ .named → ∀ site, g.dynSiteAt? stmt = some site →
    site ∈ s.summary.dynamicCalls ∨ site ∈ s.summary.unknownCalls

theorem Recorded.mono {stmt : StmtId} {s s' : Summarizer} (hg : Grows p s s')
    (h : Recorded p g stmt s) : Recorded p g stmt s' := fun i hi hk site hsite =>
  (h i hi hk site hsite).imp (hg.dynamicCalls site) (hg.unknownCalls site)

/-- A statement that makes no call has nothing to record. -/
theorem recorded_of_none {stmt : StmtId} (h : p.invokeOf? stmt = none) : Recorded p g stmt s :=
  fun i hi => by rw [h] at hi; cases hi

theorem call_spec (hg : g.Consistent p) {stmt : StmtId} :
    TrySpec (Grows p) (call p g stmt) s fun _ => Recorded p g stmt := by
  unfold call
  split
  · rename_i hnone
    exact .pure fun i _ _ site hsite => by rw [hnone] at hsite; cases hsite
  · rename_i site hsite
    refine .modify ?_ fun i _ _ site' hsite' => ?_
    · refine ⟨fun e he => Or.inl ?_, fun d hd => ?_, fun d hd => ?_⟩
      · dsimp only at he
        split at he <;> exact he
      · dsimp only
        split
        · exact List.mem_append_left _ hd
        · exact hd
      · dsimp only
        split
        · exact hd
        · exact List.mem_append_left _ hd
    · rw [hsite] at hsite'
      cases hsite'
      dsimp only
      split
      · exact Or.inl (by simp [Summary.addDynamicCall])
      · exact Or.inr (by simp [Summary.addUnknownCall])
  · rename_i sites hnone hsome
    refine (change_spec ?_ ?_ ?_).mono fun _ s' _ _ i hi hk site hsite => ?_
    · rw [Summary.foldl_addStaticCall]
    · rw [Summary.foldl_addStaticCall]
    · rw [Summary.foldl_addStaticCall]
    · exact absurd hsite (hsome site (hg.sitesAt_eq_nil hi hk))

theorem stmt_spec (hg : g.Consistent p) {id : StmtId} :
    TrySpec (Grows p) (stmt p g id) s fun _ => Recorded p g id := by
  unfold stmt
  cases hs : p.stmt? id with
  | none => exact .pure (recorded_of_none (by simp [Program.invokeOf?, hs]))
  | some st =>
    obtain ⟨m, kind⟩ := st
    cases kind with
    | assign left right =>
      dsimp only [Option.map_some]
      split
      · exact call_spec hg
      · rename_i hinvoke
        refine assign_spec.mono fun _ _ _ _ => recorded_of_none ?_
        have hnone := Option.not_isSome_iff_eq_none.1 hinvoke
        rw [Option.bind_eq_none_iff] at hnone
        simpa [Program.invokeOf?, hs, Stmt.invokeValue?] using hnone
    | invoke expr => exact call_spec hg
    | ret value =>
      have hnone : p.invokeOf? id = none := by simp [Program.invokeOf?, hs, Stmt.invokeValue?]
      cases value with
      | none => exact .pure (recorded_of_none hnone)
      | some v =>
        dsimp only [Option.map_some]
        split
        · refine (change_spec ?_ ?_ ?_).mono fun _ _ _ _ => recorded_of_none hnone
          all_goals rw [Summary.addReturn_eq]
        · exact .pure (recorded_of_none hnone)
    | nop => exact .pure (recorded_of_none (by simp [Program.invokeOf?, hs, Stmt.invokeValue?]))

theorem body_spec (hg : g.Consistent p) {m : MethodDecl} :
    TrySpec (Grows p) (body p g m) s fun _ s' => ∀ stmt ∈ m.stmts, Recorded p g stmt s' := by
  have hloop := TrySpec.forM (s := s) (P := Recorded p g) (fun _ _ _ h => Recorded.mono h)
    fun _ (_ : _ ∈ m.stmts) _ _ => stmt_spec hg
  refine .bind hloop fun _ s₁ _ hstmts => ?_
  refine (change_spec ?_ ?_ ?_).mono fun _ s₂ h₂ _ stmt hs => (hstmts stmt hs).mono h₂
  all_goals rw [Summary.foldl_addFree]

/-- Summarising a method either fails or gives a sound summary. -/
theorem method_sound (hg : g.Consistent p) {f : FuncId} {m : MethodSig}
    (hm : g.methodOf? f = some m) {s : Summarizer} (h : method p g f m = (.ok (), s)) :
    s.summary.Sound p g f := by
  unfold method at h
  split at h
  · rename_i decl hdecl
    obtain ⟨hgrows, hcalls⟩ := TrySpec.of_run (body_spec hg) h
    refine ⟨fun e he => ?_, m, hm, fun decl' hdecl' stmt hstmt => ?_⟩
    · rcases hgrows.edges e he with he | he
      · simp at he
      · exact he
    · rw [hdecl] at hdecl'
      cases hdecl'
      exact hcalls stmt hstmt
  · rename_i hnone
    cases h
    refine ⟨fun e he => by simp at he, m, hm, fun decl hdecl => ?_⟩
    rw [hnone] at hdecl
    cases hdecl

end Summarize

namespace Build

open Builder (Steps)

variable {p : Program} {b : Builder}

theorem methodOf_spec {f : FuncId} :
    TrySpec (Steps p) (methodOf f) b fun m b' => b'.graph.methodOf? f = some m := by
  unfold methodOf
  refine .get_bind ?_
  split
  · rename_i m hm
    exact .pure hm
  · exact .throw

theorem steps_foldl_addBaseRef (refs : List ((ValueId × FieldKey) × ValueId)) (b : Builder) :
    Steps p b { b with pag := refs.foldl (fun g r => g.addBaseRef r.1.1 r.2) b.pag } := by
  induction refs generalizing b with
  | nil => exact refl_of (Steps p) b
  | cons r refs ih =>
    exact trans_of (Steps p) (.of_step (.access r.1.1 r.2))
      (ih { b with pag := b.pag.addBaseRef r.1.1 r.2 })

/-- Afterwards the method has a summary. -/
theorem summarize_spec (hb : b.Sound p) {f : FuncId} :
    TrySpec (Steps p) (summarize p f) b fun _ b' => ∃ s, b'.summary? f = some s := by
  unfold summarize
  refine .get_bind ?_
  dsimp only
  split
  · rename_i hsome
    exact .pure (Option.isSome_iff_exists.1 hsome)
  · rename_i hnone
    refine .bind methodOf_spec fun m b₁ h₁ hm => .get_bind ?_
    generalize hr : Summarize.method p b₁.graph f m = r
    obtain ⟨result, s⟩ := r
    refine .modify_bind (steps_foldl_addBaseRef s.refs b₁) ?_
    cases result with
    | error e => exact .throw
    | ok x =>
      have hsound := Summarize.method_sound (h₁.sound hb).graph hm hr
      refine .modify_bind (.of_step (.summary f s.summary hsound)) (.pure ?_)
      refine Option.isSome_iff_exists.1 ?_
      simp [Builder.summary?, List.lookup_append]

theorem isSingleton_spec (hb : b.Sound p) {f : FuncId} :
    TrySpec (Steps p) (isSingleton p f) b fun _ _ => True := by
  have keep : ∀ answer b₁, TrySpec (Steps p) (do
      modify fun b => { b with singletons := b.singletons ++ [(f, answer)] }
      return answer : TryBuild Bool) b₁ fun _ _ => True := fun answer b₁ =>
    .modify_bind (.of_step (.note b₁.contexts b₁.pending _ b₁.unhandled)) (.pure trivial)
  unfold isSingleton
  refine .get_bind ?_
  split
  · exact .pure trivial
  · refine .get_bind ?_
    dsimp only
    split
    · refine .seq (summarize_spec hb).any fun _ b₁ h₁ => .get_bind ?_
      exact keep _ b₁
    · exact keep _ b

end Build

end PointsTo
