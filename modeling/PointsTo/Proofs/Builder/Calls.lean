import PointsTo.Builder.Instantiate
import PointsTo.Proofs.Builder.Summaries

/-!
# Connecting calls

A call is connected by steps of the builder. What entering the callee does is not known there, so
it is left open: whatever relation it guarantees, and whatever it keeps, holds of the whole call
(`StepInvariant`).
-/

namespace PointsTo.Build

open Builder (Steps)

variable {p : Program} {b : Builder}

theorem enqueue_spec {f : FuncId} {cid : ContextId} :
    TrySpec (Steps p) (enqueue f cid) b fun _ _ => True :=
  .modify (.of_step (.note b.contexts _ b.singletons b.unhandled)) trivial

theorem calleeContext_spec (hb : b.Sound p) {c : CallBinding} :
    TrySpec (Steps p) (calleeContext p c) b fun _ _ => True := by
  unfold calleeContext
  refine .seq (isSingleton_spec hb) fun single b₁ _ => ?_
  split
  · exact .pure trivial
  · exact .lift selectContext_spec

/-! ## Edges of a call -/

/-- An arrow function has the receiver of the method it is written in. -/
theorem connectOuterThis_spec (hb : b.Sound p) {c : CallBinding} {m : MethodDecl} {dst : NodeId} :
    Spec (Steps p) (do
      if m.sig.isArrow then
        if let some outerThis := m.outer.bind p.thisLocal? then
          let src ← valueNode p (c.functionCid.getD c.callerCid) outerThis
          discard (addEdge .this src dst)) b fun _ _ => True := by
  split
  · split
    · refine .seq (valueNode_spec hb).any fun src b₁ _ => ?_
      exact .discard (addCopyEdge_spec (by decide))
    · exact .pure trivial
  · exact .pure trivial

theorem connectThis_spec (hb : b.Sound p) {c : CallBinding} {m : MethodDecl} {cid : ContextId} :
    Spec (Steps p) (connectThis p c m cid) b fun _ _ => True := by
  unfold connectThis
  split
  · refine .seq (valueNode_spec hb).any fun dst b₁ h₁ => ?_
    dsimp only
    split
    · refine .seq (.discard (addCopyEdge_spec (by decide))) fun _ b₂ h₂ => ?_
      exact connectOuterThis_spec (h₂.sound (h₁.sound hb))
    · exact connectOuterThis_spec (h₁.sound hb)
  · exact .pure trivial

/-- What comes back from the callee, and the receiver. -/
theorem connectResult_spec (hb : b.Sound p) {c : CallBinding} {m : MethodDecl} {cid : ContextId} :
    Spec (Steps p) (do
      if let some dst := c.result then
        (p.returnValues m.sig).forM fun v => do
          discard (addEdge .copy (← valueNode p cid v) dst)
      connectThis p c m cid) b fun _ _ => True := by
  dsimp only
  split
  · refine .seq (.forM_any fun v _ b₁ h₁ => ?_) fun _ b₁ h₁ => connectThis_spec (h₁.sound hb)
    refine .seq (valueNode_spec (h₁.sound hb)).any fun n b₂ _ => ?_
    exact .discard (addCopyEdge_spec (by decide))
  · exact connectThis_spec hb

theorem connectFlow_spec (hb : b.Sound p) {c : CallBinding} {m : MethodDecl} {cid : ContextId} :
    Spec (Steps p) (connectFlow p c m cid) b fun _ _ => True := by
  unfold connectFlow
  dsimp only
  refine .seq (.forM_any fun arg _ b₁ h₁ => ?_) fun _ b₁ h₁ => ?_
  · split
    · refine .seq (valueNode_spec (h₁.sound hb)).any fun n b₂ _ => ?_
      exact .discard (addCopyEdge_spec (by decide))
    · exact .pure trivial
  · have hb₁ := h₁.sound hb
    split
    · refine .seq (.forM_any fun param _ b₂ h₂ => ?_) fun _ b₂ h₂ => ?_
      · refine .seq (valueNode_spec (h₂.sound hb₁)).any fun n b₃ _ => ?_
        exact .discard (addCopyEdge_spec (by decide))
      · exact connectResult_spec (h₂.sound hb₁)
    · exact connectResult_spec hb₁

/-! ## The whole call -/

/-- `R` allows steps and more, and all of it keeps the builder sound. `P` holds after steps if it
held before. -/
structure StepInvariant (p : Program) (R : Builder → Builder → Prop) (P : Builder → Prop) :
    Prop where
  steps : ∀ {b b'}, Steps p b b' → R b b'
  sound : ∀ {b b'}, R b b' → b.Sound p → b'.Sound p
  keeps : ∀ {b b'}, Steps p b b' → P b → P b'

theorem StepInvariant.lift {α : Type} {R : Builder → Builder → Prop} {P : Builder → Prop}
    (h : StepInvariant p R P) {m : TryBuild α} {Q : α → Builder → Prop}
    (hm : TrySpec (Steps p) m b Q) (hp : P b) : TrySpec R m b fun x b' => Q x b' ∧ P b' :=
  (hm.mono fun _ _ hs hq => ⟨hq, h.keeps hs hp⟩).weaken fun _ => h.steps

theorem connect_spec {R : Builder → Builder → Prop} [IsPreorder Builder R] {P : Builder → Prop}
    (frame : StepInvariant p R P) {enter : Enter} {c : CallBinding}
    (henter : ∀ cid b₁, R b b₁ → P b₁ → TrySpec R (enter c.callee cid) b₁ fun _ b₂ => P b₂)
    (hb : b.Sound p) (hp : P b) : TrySpec R (connect p enter c) b fun _ b' => P b' := by
  unfold connect
  refine .bind (frame.lift methodOf_spec hp) fun sig b₁ h₁ ⟨_, hp₁⟩ => ?_
  split
  · exact .pure hp₁
  · rename_i m hm
    have hb₁ := frame.sound h₁ hb
    refine .bind (frame.lift (calleeContext_spec hb₁) hp₁) fun cid b₂ h₂ ⟨_, hp₂⟩ => ?_
    refine .bind (henter cid b₂ (trans_of R h₁ h₂) hp₂) fun _ b₃ h₃ hp₃ => ?_
    have hb₃ := frame.sound h₃ (frame.sound h₂ hb₁)
    refine .bind (frame.lift (.lift (connectFlow_spec hb₃)) hp₃) fun _ b₄ _ ⟨_, hp₄⟩ => ?_
    exact .pure hp₄

/-- Entering a callee by steps connects the call by steps. -/
theorem connect_steps {enter : Enter} {c : CallBinding}
    (henter : ∀ f cid b₁, b₁.Sound p → TrySpec (Steps p) (enter f cid) b₁ fun _ _ => True)
    (hb : b.Sound p) : TrySpec (Steps p) (connect p enter c) b fun _ _ => True :=
  connect_spec ⟨id, Builder.Steps.sound, fun _ h => h⟩
    (fun cid b₁ h₁ _ => henter c.callee cid b₁ (h₁.sound hb)) hb trivial

end PointsTo.Build
