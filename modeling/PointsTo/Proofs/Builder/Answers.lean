import PointsTo.Proofs.Builder.Sharing
import PointsTo.Proofs.Builder.Steps

/-!
# Answers that are kept

A builder finds out whether a method shares what it returns when that is asked for the first time,
and keeps the answer from then on (`Build.isSingleton`). It reads it off the summary of the method.
So if all summaries show what their methods say (`Builder.SummariesExact`), then the answer that is
kept is right for the methods of the call graph at the time (`Builder.KeepsAnswers.answered`).
-/

namespace PointsTo

namespace Builder

/-- The method shares what it returns. -/
def Shares (p : Program) (b : Builder) (f : FuncId) : Prop :=
  ∃ m, b.graph.methodOf? f = some m ∧ p.SharesReturned m

/-- All summaries show what their methods say. -/
def SummariesExact (p : Program) (b : Builder) : Prop :=
  ∀ {f s}, (f, s) ∈ b.summaries → ∃ m, b.graph.methodOf? f = some m ∧ s.IsExact p m

/-- The builder later on. Answers stay. A new one is right, unless the id has got its method in
between. -/
structure KeepsAnswers (p : Program) (b b' : Builder) : Prop where
  method : ∀ {f m}, b.graph.methodOf? f = some m → b'.graph.methodOf? f = some m
  single : ∀ {f answer}, b.singletons.lookup f = some answer →
    b'.singletons.lookup f = some answer
  summariesExact : b.SummariesExact p → b'.SummariesExact p
  answered : b.SummariesExact p → ∀ {f answer}, b.singletons.lookup f = none →
    b'.singletons.lookup f = some answer →
      (answer = true → b'.Shares p f) ∧ (b.Shares p f → answer = true)

variable {p : Program} {b b' : Builder} {f : FuncId} {m : MethodSig}

theorem Shares.mono (h : b.Shares p f)
    (hg : ∀ {m}, b.graph.methodOf? f = some m → b'.graph.methodOf? f = some m) : b'.Shares p f := by
  obtain ⟨m, hm, hshares⟩ := h
  exact ⟨m, hg hm, hshares⟩

theorem shares_congr (h : b'.graph.methodOf? f = b.graph.methodOf? f) :
    b'.Shares p f ↔ b.Shares p f := by
  unfold Shares
  rw [h]

instance (p : Program) : IsPreorder Builder (KeepsAnswers p) where
  refl _ := ⟨id, id, id, fun _ _ _ hnone hsome => nomatch hnone.symm.trans hsome⟩
  trans b b' b'' h h' := {
    method := fun hm => h'.method (h.method hm)
    single := fun hf => h'.single (h.single hf)
    summariesExact := fun hb => h'.summariesExact (h.summariesExact hb)
    answered := fun hb f answer hnone hsome => by
      cases hmid : b'.singletons.lookup f with
      | some answer' =>
        cases (h'.single hmid).symm.trans hsome
        exact (h.answered hb hnone hmid).imp_left fun hshares htrue =>
          (hshares htrue).mono h'.method
      | none =>
        exact (h'.answered (h.summariesExact hb) hmid hsome).imp_right fun htrue hshares =>
          htrue (hshares.mono h.method) }

namespace KeepsAnswers

/-- No method is summarised, and nothing is answered. -/
theorem of_same (method : ∀ {f m}, b.graph.methodOf? f = some m → b'.graph.methodOf? f = some m)
    (summaries : b'.summaries = b.summaries) (singletons : b'.singletons = b.singletons) :
    KeepsAnswers p b b' where
  method := method
  single := fun hf => singletons ▸ hf
  summariesExact := fun hb f s hs => by
    obtain ⟨m, hm, hshows⟩ := hb (summaries ▸ hs)
    exact ⟨m, method hm, hshows⟩
  answered := fun _ _ _ hnone hsome => by
    rw [singletons, hnone] at hsome
    cases hsome

/-- A method is summarised. -/
theorem of_summary {s : Summary} (hm : b.graph.methodOf? f = some m) (hs : s.IsExact p m) :
    KeepsAnswers p b { b with summaries := b.summaries ++ [(f, s)] } where
  method := id
  single := id
  summariesExact := fun hb f' s' hs' => by
    rcases List.mem_append.1 hs' with hs' | hs'
    · exact hb hs'
    · cases List.mem_singleton.1 hs'
      exact ⟨m, hm, hs⟩
  answered := fun _ _ _ hnone hsome => nomatch hnone.symm.trans hsome

/-- An answer is noted that is right. -/
theorem of_answer {answer : Bool} (h : b.SummariesExact p → (answer = true ↔ b.Shares p f)) :
    KeepsAnswers p b { b with singletons := b.singletons ++ [(f, answer)] } where
  method := id
  single := fun hf => by
    rw [List.lookup_append, hf]
    rfl
  summariesExact := id
  answered := fun hb f' answer' hnone hsome => by
    rw [List.lookup_append, hnone, Option.none_or, List.lookup_cons] at hsome
    split at hsome
    · rename_i heq
      cases hsome
      cases beq_iff_eq.1 heq
      exact ⟨(h hb).1, (h hb).2⟩
    · cases hsome

end KeepsAnswers

/-- What the summary of a static method with a body says is right. -/
theorem SummariesExact.returnsShared_iff (hb : b.SummariesExact p) {s : Summary}
    (hs : b.summary? f = some s)
    (hm : b.graph.methodOf? f = some m) {decl : MethodDecl} (hdecl : p.method? m = some decl)
    (hstatic : decl.isStatic = true) (hbody : decl.hasBody = true) :
    s.returnsShared p = true ↔ b.Shares p f := by
  obtain ⟨m', hm', hshows⟩ := hb (mem_of_summary? hs)
  cases hm.symm.trans hm'
  rw [hshows.returnsShared_iff]
  constructor
  · exact fun hshared => ⟨m, hm, decl, hdecl, hstatic, hbody, hshared⟩
  · rintro ⟨m', hm', -, -, -, -, hshared⟩
    cases hm.symm.trans hm'
    exact hshared

/-- Other methods share nothing. -/
theorem not_shares (h : ¬((b.graph.methodOf? f).bind p.method?).any
    (fun decl => decl.isStatic && decl.hasBody) = true) : ¬b.Shares p f := by
  rintro ⟨m, hm, decl, hdecl, hstatic, hbody, -⟩
  refine h ?_
  rw [hm, Option.bind_some, hdecl, Option.any_some, hstatic, hbody]
  rfl

end Builder

end PointsTo
