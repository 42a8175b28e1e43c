import PointsTo.Proofs.Actions.Layout
import PointsTo.Proofs.Links.Completeness

/-!
# Layouts are whole

Between the requests, no method is laid out in part: of every method that has been taken up, all
moves have their edges, and all that it asks for waits in the queue or has been taken up
(`Builder.LaidOutOnce`). No method is taken up twice in a context.

A method is taken from the queue and counts as taken up at once, so what has been asked for is never
lost sight of. When nothing waits, all of it has been taken up.
-/

namespace PointsTo

namespace Builder

variable {p : Program} {b b' b₁ : Builder} {cid : ContextId} {f : FuncId}

/-- The builder before anything was asked of it. -/
def blank (b : Builder) : Builder :=
  ofGraph b.graph b.pag.backing b.contexts.sensitivity b.contexts.k

theorem WellFormed.blank_extends (h : b.WellFormed p) : b.blank.contexts.Extends b.contexts where
  sensitivity := rfl
  k := rfl
  item := fun hi => by simp [blank, ofGraph, ContextTable.item?] at hi
  context := fun {c ctx} hc => by
    obtain ⟨hlt, rfl⟩ := Array.getElem?_eq_some_iff.1 hc
    have hzero : c = Context.root := Nat.lt_one_iff.1 hlt
    subst hzero
    exact h.contexts.root

theorem Extends.blank_contexts (h : b.Extends b') : b'.blank.contexts = b.blank.contexts := by
  simp only [blank, ofGraph, h.contexts.sensitivity, h.contexts.k]

/-- All methods that have been taken up are laid out, each once. -/
structure LaidOutOnce (p : Program) (b : Builder) : Prop where
  wellFormed : b.WellFormed p
  once : b.built.Nodup
  laidOut : ∀ {cid f}, (cid, f) ∈ b.built →
    ∃ s, b.summary? f = some s ∧ LaidOut p b.blank b cid s

/-- What is laid out once stays so, and nothing is taken back. -/
structure KeepsLaidOutOnce (p : Program) (b b' : Builder) : Prop where
  extended : b.Extends b'
  laidOutOnce : b.LaidOutOnce p → b'.LaidOutOnce p

instance (p : Program) : IsPreorder Builder (KeepsLaidOutOnce p) where
  refl _ := ⟨.rfl, id⟩
  trans _ _ _ h h' := ⟨h.extended.trans h'.extended, fun hb => h'.laidOutOnce (h.laidOutOnce hb)⟩

/-- Older layouts are as they were. -/
theorem LaidOutOnce.laidOut_mono (h : b.LaidOutOnce p) (hb : b.Extends b')
    (hf : (cid, f) ∈ b.built) : ∃ s, b'.summary? f = some s ∧ LaidOut p b'.blank b' cid s := by
  obtain ⟨s, hs, hlaid⟩ := h.laidOut hf
  refine ⟨s, hb.summary hs, hlaid.mono ?_ hb⟩
  rw [hb.blank_contexts]
  exact .rfl

theorem KeepsLinked.keepsLaidOutOnce (h : KeepsLinked p b b') : KeepsLaidOutOnce p b b' where
  extended := h.extends
  laidOutOnce hb := {
    wellFormed := h.wellFormed hb.wellFormed
    once := h.built ▸ hb.once
    laidOut := fun hf => hb.laidOut_mono h.extends (h.built ▸ hf) }

/-- Which methods wait has nothing to do with what is laid out, as long as none is lost. -/
theorem KeepsLaidOutOnce.of_pending {pending : List (FuncId × ContextId)}
    (h : b.Extends { b with pending }) : KeepsLaidOutOnce p b { b with pending } where
  extended := h
  laidOutOnce hb := {
    wellFormed := hb.wellFormed.of_same rfl rfl rfl
    once := hb.once
    laidOut := hb.laidOut_mono h }

/-- A method is taken up and laid out. -/
theorem KeepsLaidOutOnce.of_takenUp {pending : List (FuncId × ContextId)}
    (hnew : (cid, f) ∉ b.built)
    (htaken : b.Extends { b with pending, built := (cid, f) :: b.built })
    (h : KeepsLinked p { b with pending, built := (cid, f) :: b.built } b')
    (hlaid : ∃ s, b'.summary? f = some s ∧
      LaidOut p { b with pending, built := (cid, f) :: b.built } b' cid s) :
    KeepsLaidOutOnce p b b' where
  extended := htaken.trans h.extends
  laidOutOnce hb := by
    have hretains := htaken.trans h.extends
    refine ⟨h.wellFormed (hb.wellFormed.of_same rfl rfl rfl), ?_, fun hf => ?_⟩
    · rw [h.built]
      exact List.nodup_cons.2 ⟨hnew, hb.once⟩
    · rw [h.built] at hf
      rcases List.mem_cons.1 hf with heq | hf
      · cases heq
        obtain ⟨s, hs, hlaid⟩ := hlaid
        refine ⟨s, hs, hlaid.mono ?_ .rfl⟩
        rw [hretains.blank_contexts]
        exact hb.wellFormed.blank_extends
      · exact hb.laidOut_mono hretains hf

end Builder

open Builder (Action KeepsLaidOutOnce KeepsLinked KeepsRequests)

variable {s : Setting} {b b' : Builder} {cid : ContextId} {f : FuncId}

namespace Build

/-! ## Taking up methods -/

/-- The method may have left the queue just before. -/
theorem instantiate_takenUp (hs : s.KeepsLinks) (pending : List (FuncId × ContextId))
    (hdropped : (cid, f) ∈ b.built → b.Extends { b with pending })
    (htaken : b.Extends { b with pending, built := (cid, f) :: b.built })
    (h : (instantiate s f cid).run.run { b with pending } = (.ok (), b')) :
    KeepsLaidOutOnce s.program b b' := by
  by_cases hbuilt : (cid, f) ∈ b.built
  · rw [run_instantiate_of_built (b := { b with pending }) hbuilt] at h
    cases h
    exact .of_pending (hdropped hbuilt)
  · rw [run_instantiate_of_not_built (b := { b with pending }) hbuilt] at h
    obtain ⟨hrun, summary, hsummary, -, hlaid⟩ := (layOutTaken_linkSpec hs).trySpec.of_run h
    exact .of_takenUp hbuilt htaken hrun ⟨summary, hsummary, hlaid⟩

theorem instantiate_keepsLaidOutOnce (hs : s.KeepsLinks) :
    TryGuarantees (KeepsLaidOutOnce s.program) (instantiate s f cid) := by
  intro b _ b' h
  refine instantiate_takenUp hs b.pending (fun _ => .rfl) ?_ h
  exact { Builder.Extends.rfl with
    built := List.mem_cons_of_mem _
    requested := fun hf => hf.imp_right (List.mem_cons_of_mem _) }

theorem instantiateNext_keepsLaidOutOnce (hs : s.KeepsLinks) {rest : List (FuncId × ContextId)}
    (hnext : b.pending = (f, cid) :: rest)
    (h : (instantiate s f cid).run.run { b with pending := rest } = (.ok (), b')) :
    KeepsLaidOutOnce s.program b b' :=
  instantiate_takenUp hs rest
    (fun hbuilt => (Action.drop (p := s.program) hnext hbuilt).extends)
    (Action.takeUp (p := s.program) hnext).extends h

/-- Afterwards nothing waits. -/
theorem drain_keepsLaidOutOnce (hs : s.KeepsLinks) (n : Nat) {x : Unit}
    (h : (drain s n).run.run b = (.ok x, b')) :
    KeepsLaidOutOnce s.program b b' ∧ b'.pending = [] := by
  induction n generalizing b with
  | zero =>
    unfold drain at h
    rw [run_get_bind] at h
    split at h
    · cases h
    · rename_i hempty
      cases h
      exact ⟨refl_of (KeepsLaidOutOnce s.program) _, by simpa using hempty⟩
  | succ n ih =>
    unfold drain at h
    rw [run_get_bind] at h
    split at h
    · rename_i hempty
      cases h
      exact ⟨refl_of (KeepsLaidOutOnce s.program) _, hempty⟩
    · rename_i f cid rest hnext
      obtain ⟨_, _, hpop, hrest⟩ := TryGuarantees.of_bind h
      cases hpop
      obtain ⟨_, b₁, hone, hrest⟩ := TryGuarantees.of_bind hrest
      obtain ⟨hkeeps, hempty⟩ := ih hrest
      have hfirst := instantiateNext_keepsLaidOutOnce hs hnext hone
      exact ⟨trans_of (KeepsLaidOutOnce s.program) hfirst hkeeps, hempty⟩

end Build

theorem Setting.KeepsLinks.queueKeepsLaidOutOnce (hs : s.KeepsLinks) :
    s.QueueGuarantees .successes (KeepsLaidOutOnce s.program) where
  keepsLinked := KeepsLinked.keepsLaidOutOnce
  instantiate := .of_tryGuarantees (Build.instantiate_keepsLaidOutOnce hs)
  drain n := .of_tryGuarantees fun _ _ _ h => (Build.drain_keepsLaidOutOnce hs n h).1

namespace Builder

/-- A request has succeeded. -/
def Succeeds (s : Setting) (b b' : Builder) : Prop :=
  ∃ (α : Type) (m : TryBuild α) (x : α), Build.Request s m ∧ m.run.run b = (.ok x, b')

/-- The builder has got here from an empty one with a call graph of the program, by requests that
succeed. -/
def ReachedByRequests (s : Setting) (b : Builder) : Prop :=
  ∃ (seed : Seed) (entries : List MethodSig) (backing : Backing) (sensitivity : Sensitivity)
    (k : Nat), Relation.ReflTransGen (Succeeds s)
      (ofGraph (seed.graph s.program entries) backing sensitivity k) b

/-- Wherever the builder has got to, the methods that have been taken up are laid out. -/
theorem ReachedByRequests.laidOutOnce (hs : s.models ⊆ LibraryModel.standard)
    (h : b.ReachedByRequests s) : b.LaidOutOnce s.program := by
  have hleads : s.KeepsLinks := Build.keepsLinks_of_subset hs s.program
  obtain ⟨seed, entries, backing, sensitivity, k, h⟩ := h
  induction h with
  | refl =>
    have hg := seed.graph_consistent s.program entries
    exact ⟨wellFormed_ofGraph hg backing sensitivity k, List.nodup_nil, nofun⟩
  | tail _ hstep ih =>
    obtain ⟨_, _, _, hm, hrun⟩ := hstep
    exact ((hm.guarantees hs hleads.queueKeepsLaidOutOnce).tryGuarantees hrun).laidOutOnce ih

end Builder

namespace Build

/-- Afterwards the method is laid out, and nothing waits. -/
theorem enterNow_keepsLaidOutOnce (hs : s.KeepsLinks)
    (h : (enterNow s f cid).run.run b = (.ok (), b')) :
    KeepsLaidOutOnce s.program b b' ∧ b'.pending = [] ∧ (cid, f) ∈ b'.built := by
  obtain ⟨_, b₁, hqueue, hdrain⟩ := TryGuarantees.of_bind h
  obtain ⟨hqueued, hasked⟩ := (enqueue_linkSpec (p := s.program)).trySpec.of_run hqueue
  obtain ⟨hkeeps, hempty⟩ := drain_keepsLaidOutOnce hs s.fuel hdrain
  refine ⟨trans_of (KeepsLaidOutOnce s.program) hqueued.keepsLaidOutOnce hkeeps, hempty, ?_⟩
  exact built_of_requested (hkeeps.extended.requested (Or.inl hasked)) hempty

end Build

end PointsTo
