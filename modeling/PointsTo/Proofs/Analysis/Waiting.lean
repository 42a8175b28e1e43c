import PointsTo.Proofs.Analysis.Calls
import PointsTo.Proofs.Analysis.Propagation

/-!
# Calls that wait

A call waits for the objects at its node, and is to be looked at for each of them (`Waits`). Until
it is, it is noted: the object as it arrives at the node, or the call as it is registered (`Noted`).
Whatever else is done, a call that comes to wait for an object is noted for it, and nothing that is
noted is forgotten (`KeepsNoted`).

From time to time, calls are looked at for all that is noted. Whatever is true of a call as soon as
it has been looked at for an object (`EstablishedByLooking`) is then true of all of them
(`NotedLookedAt`).
-/

namespace PointsTo.Analysis

open Builder (AllCallsWait)

variable {s : Setting} {p : Program} {a a' a'' : Analysis} {n o : NodeId} {site : SiteRef}

/-- The call waits at the node, and the object is there. -/
def Waits (a : Analysis) (n : NodeId) (site : SiteRef) (o : NodeId) : Prop :=
  site ∈ a.pag.sitesOf n ∧ o ∈ a.pag.ptsOf n

/-- The call is to be looked at for the object, which has arrived, or because the call is new. -/
def Noted (a : Analysis) (n : NodeId) (site : SiteRef) (o : NodeId) : Prop :=
  (∃ objs, (n, objs) ∈ a.arrivals ∧ o ∈ objs) ∨ (n, site) ∈ a.builder.newSites

/-- A call that has come to wait for an object is noted for it. -/
structure KeepsNoted (a a' : Analysis) : Prop where
  waits : ∀ {n site o}, a'.Waits n site o → a.Waits n site o ∨ a'.Noted n site o
  noted : ∀ {n site o}, a.Noted n site o → a'.Noted n site o

namespace KeepsNoted

theorem of_same (pag : a'.pag = a.pag) (arrivals : a'.arrivals = a.arrivals)
    (newSites : a'.builder.newSites = a.builder.newSites) : KeepsNoted a a' where
  waits h := Or.inl (by rwa [Waits, pag] at h)
  noted h := by rwa [Noted, arrivals, newSites]

theorem rfl : KeepsNoted a a :=
  ⟨Or.inl, id⟩

theorem trans (h : KeepsNoted a a') (h' : KeepsNoted a' a'') : KeepsNoted a a'' where
  waits hw := (h'.waits hw).elim (fun hw => (h.waits hw).imp_right h'.noted) Or.inr
  noted hn := h'.noted (h.noted hn)

end KeepsNoted

/-- While something is built, the objects at a node stay the same. Only calls can be new there. -/
theorem ChangesOnlyBuilder.keepsNoted (h : ChangesOnlyBuilder p a a') : KeepsNoted a a' where
  waits := fun ⟨hsite, ho⟩ => (h.layoutSteps.grows.sites hsite).imp
    (⟨·, h.layoutSteps.grows.pts ho⟩) Or.inr
  noted := Or.imp (fun hx => h.arrivals ▸ hx) h.layoutSteps.grows.newSites

theorem changesOnlyBuilder_spec {α : Type} {m : TryAnalysis α} {Q : α → Analysis → Prop}
    (h : TrySpec (ChangesOnlyBuilder p) m a Q) :
    TrySpec (Steps p) m a fun x a' => ChangesOnlyBuilder p a a' ∧ Q x a' :=
  (h.mono fun _ _ hb hq => ⟨hb, hq⟩).weaken fun _ hb => hb.steps

theorem Visited.keepsNoted (h : Visited n a a') : KeepsNoted a a' where
  waits := fun ⟨hsite, ho⟩ => Or.inl ⟨h.sites hsite, h.pts ho⟩
  noted := Or.imp (fun hx => h.arrivals ▸ hx) fun hx => by rwa [h.builder]

theorem arrivals_settle (a : Analysis) (n : NodeId) : (a.settle n).arrivals =
    if ((a.settle n).pag.sitesOf n).isEmpty then a.arrivals
    else a.arrivals.push (n, (a.facts.freshOf n).toList) := by
  rw [pag_settle]
  unfold settle
  dsimp only
  split
  · rename_i h
    exact (if_pos h).symm
  · rename_i h
    exact (if_neg h).symm

theorem mem_arrivals_settle {x : NodeId × List NodeId} (h : x ∈ (a.settle n).arrivals) :
    x ∈ a.arrivals ∨ x = (n, (a.facts.freshOf n).toList) := by
  rw [arrivals_settle] at h
  split at h
  · exact Or.inl h
  · exact Array.mem_push.1 h

/-- If calls wait at the node, what is settled is noted for them. -/
theorem settle_keepsNoted (a : Analysis) (n : NodeId) : KeepsNoted a (a.settle n) where
  waits {m site o} h := by
    obtain ⟨hsite, ho⟩ := h
    rw [pag_settle, Pag.mem_ptsOf_addPts] at ho
    rcases ho with ho | ⟨rfl, -, ho⟩
    · rw [pag_settle, Pag.mem_sitesOf_addPts] at hsite
      exact Or.inl ⟨hsite, ho⟩
    · refine Or.inr (Or.inl ⟨_, ?_, ObjSet.mem_def.1 ho⟩)
      rw [arrivals_settle, if_neg]
      · exact Array.mem_push_self
      · intro hempty
        rw [List.isEmpty_iff.1 hempty] at hsite
        cases hsite
  noted := by
    refine Or.imp (fun ⟨objs, hx, ho⟩ => ⟨objs, ?_, ho⟩) fun hnew => ?_
    · rw [arrivals_settle]
      split
      · exact hx
      · exact Array.mem_push_of_mem _ hx
    · rwa [builder_settle]

/-- The analysis with calls forgotten that it has noted, and other statistics. -/
def forget (a : Analysis) (newSites : Array (NodeId × SiteRef))
    (arrivals : Array (NodeId × List NodeId)) (stats : Stats) : Analysis :=
  { a with builder := { a.builder with newSites }, arrivals, stats }

theorem forget_steps (a : Analysis) (newSites : Array (NodeId × SiteRef))
    (arrivals : Array (NodeId × List NodeId)) (stats : Stats) :
    Steps p a (a.forget newSites arrivals stats) := by
  have htake := Steps.of_step (p := p) (.take a.builder.newEdges newSites fun _ he => he)
  exact htake.tail (.schedule a.queue arrivals stats)

/-! ## Looking at calls -/

/-- As soon as a call has been looked at for an object, `D` is true of them, and stays so while
calls are looked at along `R`. To look at calls, `I` has to hold. -/
structure EstablishedByLooking (s : Setting) (I : Analysis → Prop) (R : Analysis → Analysis → Prop)
    (D : Analysis → NodeId → SiteRef → NodeId → Prop) : Prop where
  changesOnlyBuilder : ∀ {a a'}, R a a' → ChangesOnlyBuilder s.program a a'
  callsWait : ∀ {a}, I a → a.builder.AllCallsWait s.program
  stable : ∀ {a a' n site o}, R a a' → D a n site o → D a' n site o
  forget : ∀ {a} newSites arrivals stats, I a → I (a.forget newSites arrivals stats)
  keep : ∀ {a n site o} newSites arrivals stats, D a n site o →
    D (a.forget newSites arrivals stats) n site o
  look : ∀ {a n site o}, a.Grounded s.program → I a → o < a.pag.nodes.size →
    TrySpec R (processSite s n site o) a fun _ a' => I a' ∧ D a' n site o

theorem looked_established (hs : s.IsStandard) :
    EstablishedByLooking s (fun a => a.builder.AllCallsWait s.program)
    (ChangesOnlyBuilder s.program) fun a n site o => Looked s.program a.builder n site o where
  changesOnlyBuilder h := h
  callsWait h := h
  stable h hl := hl.mono h.layoutSteps.grows.pag h.layoutSteps.grows.graph h.layoutSteps.built
  forget _ _ _ h := h
  keep _ _ _ hl := hl.mono .rfl .rfl (List.Subset.refl _)
  look ha hlaid ho := processSite_spec hs ha.sound hlaid ho

theorem Grounded.lt_of_mem_ptsOf (ha : a.Grounded p) (ho : o ∈ a.pag.ptsOf n) :
    o < a.pag.nodes.size :=
  lt_of_isObject (ha.object (ha.exposed ho))

namespace EstablishedByLooking

variable {I : Analysis → Prop} {R : Analysis → Analysis → Prop}
  {D : Analysis → NodeId → SiteRef → NodeId → Prop} {α : Type} {m : TryAnalysis α}
  {Q : α → Analysis → Prop}

theorem spec (h : EstablishedByLooking s I R D) (hm : TrySpec R m a Q) :
    TrySpec (Steps s.program) m a fun x a' => R a a' ∧ Q x a' :=
  (hm.mono fun _ _ hr hq => ⟨hr, hq⟩).weaken fun _ hr => (h.changesOnlyBuilder hr).steps

variable [IsPreorder Analysis R]

theorem lookForEach (h : EstablishedByLooking s I R D) (ha : a.Grounded s.program) (hi : I a)
    {objs : List NodeId} (hobjs : ∀ o ∈ objs, o < a.pag.nodes.size) :
    TrySpec R (objs.forM (processSite s n site)) a fun _ a' =>
      I a' ∧ ∀ o ∈ objs, D a' n site o := by
  refine .forM_invariant (fun o a₁ a₂ => h.stable) hi fun o ho a₁ h₁ hi₁ => ?_
  have hb₁ := h.changesOnlyBuilder h₁
  exact h.look (hb₁.steps.grounded ha) hi₁ (hb₁.layoutSteps.grows.pag.lt (hobjs o ho))

/-- The calls at a node are looked at for objects that have arrived there. Calls that come up
meanwhile are noted. -/
theorem lookAt (h : EstablishedByLooking s I R D) (ha : a.Grounded s.program) (hi : I a)
    {objs : List NodeId} (hobjs : ∀ o ∈ objs, o < a.pag.nodes.size) :
    TrySpec R ((a.pag.sitesOf n).forM fun site => objs.forM (processSite s n site)) a fun _ a' =>
      I a' ∧ ∀ site ∈ a'.pag.sitesOf n, ∀ o ∈ objs,
        D a' n site o ∨ (n, site) ∈ a'.builder.newSites := by
  refine (TrySpec.forM_invariant (P := fun site a' => ∀ o ∈ objs, D a' n site o) ?_ hi ?_).mono ?_
  · exact fun site a₁ a₂ h' hd o ho => h.stable h' (hd o ho)
  · intro site _ a₁ h₁ hi₁
    have hb₁ := h.changesOnlyBuilder h₁
    exact h.lookForEach (hb₁.steps.grounded ha) hi₁
      fun o ho => hb₁.layoutSteps.grows.pag.lt (hobjs o ho)
  · rintro - a₁ h₁ ⟨hi₁, hd⟩
    refine ⟨hi₁, fun site hsite o ho => ?_⟩
    exact ((h.changesOnlyBuilder h₁).layoutSteps.grows.sites hsite).imp (hd site · o ho) id

/-- Every call at a node is looked at for the objects that have arrived. -/
theorem lookAtArrivals (h : EstablishedByLooking s I R D) (ha : a.Grounded s.program) (hi : I a)
    {arrivals : List (NodeId × List NodeId)}
    (harr : ∀ x ∈ arrivals, ∀ o ∈ x.2, o < a.pag.nodes.size) :
    TrySpec R (arrivals.forM fun (n, objs) => do
      ((← get).pag.sitesOf n).forM fun site => objs.forM (processSite s n site)) a fun _ a' =>
      I a' ∧ ∀ x ∈ arrivals, ∀ site ∈ a'.pag.sitesOf x.1, ∀ o ∈ x.2,
        D a' x.1 site o ∨ (x.1, site) ∈ a'.builder.newSites := by
  refine .forM_invariant ?_ hi ?_
  · intro x a₁ a₂ h' hd site hsite o ho
    have hgrows := (h.changesOnlyBuilder h').layoutSteps.grows
    rcases hgrows.sites hsite with hsite | hnew
    · exact (hd site hsite o ho).imp (h.stable h') hgrows.newSites
    · exact Or.inr hnew
  · rintro ⟨n, objs⟩ hx a₁ h₁ hi₁
    have hb₁ := h.changesOnlyBuilder h₁
    exact .get_bind (h.lookAt (hb₁.steps.grounded ha) hi₁
      fun o ho => hb₁.layoutSteps.grows.pag.lt (harr _ hx o ho))

/-- Every new call is looked at for the objects at its node. -/
theorem lookAtNewSites (h : EstablishedByLooking s I R D) (ha : a.Grounded s.program) (hi : I a)
    {sites : List (NodeId × SiteRef)} :
    TrySpec R (sites.forM fun (n, site) => do
      ((← get).pag.ptsOf n).forM (processSite s n site)) a fun _ a' =>
      I a' ∧ ∀ x ∈ sites, ∀ o ∈ a'.pag.ptsOf x.1, D a' x.1 x.2 o := by
  refine .forM_invariant ?_ hi ?_
  · exact fun x a₁ a₂ h' hd o ho =>
      h.stable h' (hd o ((h.changesOnlyBuilder h').layoutSteps.grows.pts ho))
  · rintro ⟨n, site⟩ - a₁ h₁ hi₁
    have ha₁ := (h.changesOnlyBuilder h₁).steps.grounded ha
    refine .get_bind ((h.lookForEach ha₁ hi₁ fun o ho => ha₁.lt_of_mem_ptsOf ho).mono ?_)
    rintro - a₂ h₂ ⟨hi₂, hd⟩
    exact ⟨hi₂, fun o ho => hd o ((h.changesOnlyBuilder h₂).layoutSteps.grows.pts ho)⟩

end EstablishedByLooking

/-- Calls were looked at for all that was noted. What has come up meanwhile was looked at as well,
or is noted. -/
structure NotedLookedAt (D : Analysis → NodeId → SiteRef → NodeId → Prop) (a a' : Analysis) :
    Prop where
  waits : ∀ {n site o}, a'.Waits n site o →
    D a' n site o ∨ a'.Noted n site o ∨ (a.Waits n site o ∧ ¬a.Noted n site o)
  kept : ∀ {n site o}, D a n site o → D a' n site o

/-- First come the objects that have arrived, and with them all calls at their nodes, then the new
calls, with all objects at their nodes. -/
theorem EstablishedByLooking.notedLookedAt {I : Analysis → Prop} {R : Analysis → Analysis → Prop}
    {D : Analysis → NodeId → SiteRef → NodeId → Prop} (h : EstablishedByLooking s I R D)
    (h₁ : R (a.forget a.builder.newSites #[] a.stats) a')
    (hd₁ : ∀ x ∈ a.arrivals.toList, ∀ site ∈ a'.pag.sitesOf x.1, ∀ o ∈ x.2,
      D a' x.1 site o ∨ (x.1, site) ∈ a'.builder.newSites)
    (h₂ : R (a'.forget #[] a'.arrivals a'.stats) a'')
    (hd₂ : ∀ x ∈ a'.builder.newSites.toList, ∀ o ∈ a''.pag.ptsOf x.1, D a'' x.1 x.2 o) :
    NotedLookedAt D a a'' := by
  have hkept : ∀ {n site o}, D a' n site o → D a'' n site o := fun hd =>
    h.stable h₂ (h.keep _ _ _ hd)
  have hgrows := (h.changesOnlyBuilder h₁).layoutSteps.grows
  refine ⟨fun {n site o} hw => ?_, fun hd => hkept (h.stable h₁ (h.keep _ _ _ hd))⟩
  have hnew : (n, site) ∈ a'.builder.newSites → D a'' n site o := fun hx =>
    hd₂ (n, site) (by simpa using hx) o hw.2
  rcases (h.changesOnlyBuilder h₂).keepsNoted.waits hw with hw' | hnoted
  · rcases hgrows.sites hw'.1 with hsite | hx
    · by_cases hnoted : a.Noted n site o
      · left
        rcases hnoted with ⟨objs, hx, ho⟩ | hx
        · exact (hd₁ (n, objs) (by simpa using hx) site hw'.1 o ho).elim hkept hnew
        · exact hnew (hgrows.newSites hx)
      · exact Or.inr (Or.inr ⟨⟨hsite, hgrows.pts hw'.2⟩, hnoted⟩)
    · exact Or.inl (hnew hx)
  · exact Or.inr (Or.inl hnoted)

end PointsTo.Analysis
