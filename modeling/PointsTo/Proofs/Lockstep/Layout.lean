import PointsTo.Builder.Instantiate
import PointsTo.Proofs.Lockstep.Library

/-!
# Laying out in lockstep

Methods are laid out alike, and the queue of methods is worked off in the same order. This is where
fuel comes in: with less of it, the queue may be left before it is empty.
-/

namespace PointsTo

open Builder (Alike)

/-- The setting with another bound for loops. -/
def Setting.withFuel (s : Setting) (fuel : Nat) : Setting :=
  { s with fuel }

@[simp] theorem Setting.program_withFuel (s : Setting) (fuel : Nat) :
    (s.withFuel fuel).program = s.program :=
  rfl

/-- Every model of the setting treats builders alike. -/
def Setting.Respects (cmp : Comparison) (s : Setting) : Prop :=
  ∀ m ∈ s.models, m.Respects cmp s.program

namespace Build

variable {cmp : Comparison} {s : Setting} {p : Program}

/-- The code that sets up what a free local stands for. -/
theorem linkFreeInit_respects {f : FreeLocal} : TryRespects cmp.strict (Alike cmp) (do
      if let some (.localVar _ _ m) := p.value? f.decl then
        let init ← funcOf p m .blank
        enqueue init (← entryContext init) : TryBuild Unit) (do
      if let some (.localVar _ _ m) := p.value? f.decl then
        let init ← funcOf p m .blank
        enqueue init (← entryContext init)) := by
  split
  · refine .bind (.lift funcOf_respects) fun init => ?_
    exact .bind (.lift entryContext_respects) fun _ => enqueue_respects _ _
  · exact .pure

theorem linkFree_respects {cid : ContextId} {f : FreeLocal} :
    TryRespects cmp.strict (Alike cmp) (linkFree p cid f) (linkFree p cid f) := by
  refine .bind (.lift valueNode_respects) fun here => ?_
  dsimp only
  split
  · exact .bind (.lift link_respects) fun _ => linkFreeInit_respects
  · refine .bind (.lift nodeOf_respects) fun shared => .bind (.lift link_respects) fun _ => ?_
    exact .bind (.lift (.discard addEdge_respects)) fun _ => linkFreeInit_respects

theorem staticResult_respects {cid : ContextId} {site : CallSite} {result : Option ValueId}
    {args : List (NodeId × Nat)} {thisSrc : Option NodeId} : Respects (Alike cmp) (do
      let result ← match result with
        | some v => some <$> valueNode p cid v
        | none => pure none
      return ({ site := site.id, callerCid := cid, callee := site.callee, thisSrc, args, result } :
        CallBinding)) := by
  cases result with
  | some v => exact .bind (.map valueNode_respects) fun _ => .pure
  | none => exact .bind .pure fun _ => .pure

theorem staticBinding_respects {cid : ContextId} {site : CallSite} {i : Invoke}
    {result : Option ValueId} :
    Respects (Alike cmp) (staticBinding p cid site i result) := by
  refine .bind (argNodes_respects _ _) fun args => ?_
  cases i.base with
  | some base => exact .bind (.map valueNode_respects) fun thisSrc => staticResult_respects
  | none => exact .bind .pure fun thisSrc => staticResult_respects

theorem wireStatic_respects (hs : s.Respects cmp) {cid : ContextId} {site : CallSite} :
    TryRespects cmp.strict (Alike cmp) (wireStatic s cid site) (wireStatic s cid site) := by
  unfold wireStatic
  dsimp only
  split
  · refine .bind methodOf_respects fun callee => ?_
    split
    · refine .bind (.lift staticBinding_respects) fun binding => ?_
      exact .discard (connect_respects enqueue_respects)
    · refine .bind (LibraryModel.runOnCall_respects hs) fun taken => ?_
      split
      · exact .lift addUnhandled_respects
      · exact .pure
  · exact .pure

theorem registerDynamic_respects {cid : ContextId} {role : SiteRole} {site : DynCallSite} :
    Respects (Alike cmp) (registerDynamic p cid role site) := by
  unfold registerDynamic
  split
  · exact .bind valueNode_respects fun _ => .discard addSite_respects
  · exact .pure

theorem layEdge_respects {cid : ContextId} {e : SummaryEdge} :
    Respects (Alike cmp) (layEdge p cid e) :=
  .bind nodeOf_respects fun _ => .bind nodeOf_respects fun _ => .discard addEdge_respects

theorem layOut_respects (hs : s.Respects cmp) {cid : ContextId} {summary : Summary} :
    TryRespects cmp.strict (Alike cmp) (layOut s cid summary) (layOut s cid summary) := by
  refine .bind (.forM fun _ _ => .lift layEdge_respects) fun _ => ?_
  refine .bind (.forM fun _ _ => linkFree_respects) fun _ => ?_
  refine .bind (.forM fun _ _ => wireStatic_respects hs) fun _ => ?_
  refine .bind (.forM fun _ _ => .lift registerDynamic_respects) fun _ => ?_
  exact .forM fun _ _ => .lift registerDynamic_respects

theorem instantiate_respects (hs : s.Respects cmp) {f : FuncId} {cid : ContextId} :
    TryRespects cmp.strict (Alike cmp) (instantiate s f cid) (instantiate s f cid) := by
  refine .get_bind fun b b' h => ?_
  rw [h.built]
  refine TryRespects.apply ?_ h
  split
  · refine .bind (.modify fun _ _ h₁ => { h₁ with built := by rw [h₁.built] }) fun _ => ?_
    refine .bind summarize_respects fun _ => .get_bind fun b₂ b₂' h₂ => ?_
    rw [h₂.summary?]
    refine TryRespects.apply ?_ h₂
    split
    · exact layOut_respects hs
    · exact .pure
  · exact .pure

/-! ## The queue of methods -/

theorem drain_stops : StopsWhen (fun b => b.pending = []) (drain s) where
  stop n h := by
    cases n with
    | zero =>
      unfold drain
      rw [run_get_bind, h]
      rfl
    | succ n =>
      unfold drain
      rw [run_get_bind, h]
      rfl
  starve h := by
    unfold drain
    rw [run_get_bind, if_pos (by simpa using h)]
    rfl

theorem drain_respects (hs : s.Respects cmp) {fuel : Nat} (n n' : Nat) (hn : cmp.strict → n' = n) :
    TryRespects cmp.strict (Alike cmp) (drain s n) (drain (s.withFuel fuel) n') := by
  refine drain_stops.respects drain_stops (fun b b' h => by rw [h.pending]) ?_ n n' hn
  intro n n' ih
  refine .get_bind fun b b' h => ?_
  rw [h.pending]
  refine TryRespects.apply ?_ h
  split
  · exact .pure
  · refine .bind (.modify fun _ _ h₁ => { h₁ with pending := rfl }) fun _ => ?_
    exact .bind (instantiate_respects hs) fun _ => ih

variable {fuel : Nat}

theorem enterNow_respects (hs : s.Respects cmp) (hfuel : cmp.strict → fuel = s.fuel) :
    Enter.Respects cmp (enterNow s) (enterNow (s.withFuel fuel)) :=
  fun f cid => .bind (enqueue_respects f cid) fun _ => drain_respects hs _ _ hfuel

theorem enterEntry_respects (hs : s.Respects cmp) (hfuel : cmp.strict → fuel = s.fuel)
    {f : FuncId} : TryRespects cmp.strict (Alike cmp) (enterEntry s f)
      (enterEntry (s.withFuel fuel) f) :=
  .bind (.lift entryContext_respects) fun cid =>
    .bind (enterNow_respects hs hfuel f cid) fun _ => .pure

theorem runModels_respects (hs : s.Respects cmp) (hfuel : cmp.strict → fuel = s.fuel)
    {c : ModelCall} {role : SiteRole} {obj : NodeId} : TryRespects cmp.strict (Alike cmp)
      (runModels s c role obj) (runModels (s.withFuel fuel) c role obj) :=
  .bind (LibraryModel.runOnObject_respects enqueue_respects hs) fun _ =>
    .bind (drain_respects hs _ _ hfuel) fun _ => .pure

end Build

end PointsTo
