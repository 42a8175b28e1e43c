import PointsTo.Proofs.Analysis.Sharing
import PointsTo.Proofs.Links.Draining

/-!
# What is laid out in the end

An analysis lays methods out on many occasions: for its entries, for calls that it resolves, and for
calls that the models make. On each of them the queue is worked off. So when an analysis completes,
nothing waits, and every method that has been taken up is laid out with all that it asks for
(`Analysis.Completes.fulfils`). And a method that is said to share what it returns does
(`Analysis.Completes.shares`).
-/

namespace PointsTo

open Builder (KeepsLaidOutOnce)

namespace Builder

/-- Nothing waits afterwards if nothing has waited. -/
def KeepsEmpty (b b' : Builder) : Prop :=
  b.pending = [] → b'.pending = []

instance : IsPreorder Builder KeepsEmpty where
  refl _ := id
  trans _ _ _ h h' := fun hb => h' (h hb)

end Builder

open Builder (KeepsEmpty)

variable {s : Setting} {f : FuncId} {cid : ContextId}

namespace Build

/-- What is entered at once is laid out at once. -/
theorem enterNow_keepsEmpty (hs : s.KeepsLinks) :
    (enterNow s).Guarantees s.program .successes KeepsEmpty where
  keepsRequests h := fun hb => h.samePending.trans hb
  context := fun _ => id
  enter := .of_tryGuarantees fun _ _ _ h _ => (enterNow_keepsLaidOutOnce hs h).2.1

theorem enterEntry_keepsEmpty (hs : s.KeepsLinks) :
    GuaranteesOn .successes KeepsEmpty (enterEntry s f) := by
  have hcontext : Guarantees KeepsEmpty (entryContext f) := fun _ => id
  exact .bind (.lift hcontext) fun _ => .bind (enterNow_keepsEmpty hs).enter fun _ => .pure

/-- What the models have called is laid out when they are done. -/
theorem runModels_keepsEmpty (hs : s.KeepsLinks) {c : ModelCall} {role : SiteRole} {obj : NodeId} :
    GuaranteesOn .successes KeepsEmpty (runModels s c role obj) := by
  refine .of_tryGuarantees fun b taken b' h _ => ?_
  obtain ⟨_, b₁, -, hrest⟩ := TryGuarantees.of_bind h
  obtain ⟨_, b₂, hdrain, hend⟩ := TryGuarantees.of_bind hrest
  cases hend
  exact (drain_keepsLaidOutOnce hs s.fuel hdrain).2

end Build

theorem Setting.KeepsLinks.analysisKeepsEmpty (hs : s.KeepsLinks) :
    s.AnalysisGuarantees .successes KeepsEmpty :=
  Analysis.analysisGuarantees_of_keepsRequests (Build.enterNow_keepsEmpty hs)
    (Build.runModels_keepsEmpty hs) fun _ _ _ _ _ _ => id

theorem Setting.KeepsLinks.analysisKeepsLaidOutOnce (hs : s.KeepsLinks) :
    s.AnalysisGuarantees .successes (KeepsLaidOutOnce s.program) := by
  refine Analysis.analysisGuarantees_of_queue hs hs.queueKeepsLaidOutOnce
    fun b pag newEdges newSites h size => ?_
  have hretains : b.Extends { b with pag, newEdges, newSites } :=
    (Builder.Action.draw (p := s.program) pag b.links newEdges newSites h size).extends
  exact {
    extended := hretains
    laidOutOnce := fun hb =>
      ⟨hb.wellFormed.of_same rfl rfl rfl, hb.once, hb.laidOut_mono hretains⟩ }

namespace Analysis

variable {p : Program} {seed : Seed} {entries : List MethodSig} {c : Config} {a : Analysis}

/-- Nothing waits to be laid out when an analysis completes. -/
theorem Completes.empty (h : Completes p seed entries c a) : a.builder.pending = [] := by
  refine h.onBuilder (R := KeepsEmpty) (o := .successes) ?_ rfl
  rintro s rfl hs
  exact ⟨hs.keepsLinks.analysisKeepsEmpty, fun _ => Build.enterEntry_keepsEmpty hs.keepsLinks⟩

theorem Completes.keepsLaidOutOnce (h : Completes p seed entries c a) : KeepsLaidOutOnce p
    (Builder.ofGraph (seed.graph p entries) c.backing c.sensitivity c.kLimit) a.builder := by
  refine h.onBuilder (o := .successes) ?_
  rintro s rfl hs
  exact ⟨hs.keepsLinks.analysisKeepsLaidOutOnce, fun _ =>
    Build.enterEntry_guarantees hs.keepsLinks.queueKeepsLaidOutOnce⟩

theorem Completes.laidOutOnce (h : Completes p seed entries c a) : a.builder.LaidOutOnce p :=
  h.keepsLaidOutOnce.laidOutOnce
    ⟨Builder.wellFormed_ofGraph (seed.graph_consistent p entries) c.backing c.sensitivity c.kLimit,
      List.nodup_nil, nofun⟩

/-- What has been asked for has been taken up when an analysis completes. -/
theorem Completes.built (h : Completes p seed entries c a) (hf : a.builder.Requested f cid) :
    (cid, f) ∈ a.builder.built :=
  Build.built_of_requested hf h.empty

/-- When an analysis completes, every method that has been taken up is laid out with all that it
asks for. -/
theorem Completes.fulfils (h : Completes p seed entries c a) (hf : (cid, f) ∈ a.builder.built) :
    ∃ s, a.builder.summary? f = some s ∧ a.builder.Fulfils p cid s :=
  h.laidOutOnce.fulfils h.empty hf

/-- What is noted of a method when an analysis completes is right. -/
theorem Completes.shares (h : Completes p seed entries c a)
    (hf : a.builder.singletons.lookup f = some true) : a.builder.Shares p f := by
  let b := Builder.ofGraph (seed.graph p entries) c.backing c.sensitivity c.kLimit
  have hnotes : Builder.KeepsAnswers p b a.builder := by
    refine h.onBuilder (o := .all) ?_
    rintro s rfl hs
    exact ⟨hs.keepsLinks.analysisKeepsAnswers, fun _ =>
      Build.enterEntry_guarantees hs.keepsLinks.queueKeepsAnswers⟩
  have hinformed : b.SummariesExact p := Builder.summariesExact_ofGraph _ _ _ _
  exact (hnotes.answered hinformed rfl hf).1 rfl

end Analysis

end PointsTo
