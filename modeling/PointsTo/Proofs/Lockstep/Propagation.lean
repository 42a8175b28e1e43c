import PointsTo.Analysis.Propagate
import PointsTo.Proofs.Lockstep.Effects
import PointsTo.Proofs.Lockstep.Builder

/-!
# Passing facts on in lockstep

Sets with the same members give the same answers, list their members in the same order, and grow
alike. So the same nodes are queued and visited in the same order, and the same copies are drawn.
-/

namespace PointsTo.Analysis

variable {cmp : Comparison} {p : Program} {a a' : Analysis}

namespace Alike

theorem foldl {α : Type} {f f' : Analysis → α → Analysis}
    (hf : ∀ {a a'} x, a.Alike cmp a' → (f a x).Alike cmp (f' a' x)) (h : a.Alike cmp a')
    (xs : List α) : (xs.foldl f a).Alike cmp (xs.foldl f' a') := by
  induction xs generalizing a a' with
  | nil => exact h
  | cons x xs ih => exact ih (hf x h)

theorem setPag (h : a.Alike cmp a') {g g' : Pag} (hg : g.Alike g') :
    (a.setPag g).Alike cmp (a'.setPag g') :=
  { h with builder := { h.builder with pag := hg } }

theorem enqueue (h : a.Alike cmp a') (n : NodeId) :
    (a.enqueue n).Alike cmp (a'.enqueue n) :=
  { h with queue := by unfold Analysis.enqueue; rw [h.queue] }

theorem receive (h : a.Alike cmp a') (n : NodeId) {r r' : Bool × DiffStore}
    (hr : DiffStore.AnswersAlike r r') : (a.receive n r).Alike cmp (a'.receive n r') := by
  have hfacts : Alike cmp { a with facts := r.2 } { a' with facts := r'.2 } :=
    { h with facts := hr.store }
  unfold Analysis.receive
  dsimp only
  rw [hr.answer]
  split
  · exact hfacts.enqueue n
  · exact hfacts

theorem countPropagation (h : a.Alike cmp a') :
    a.countPropagation.Alike cmp a'.countPropagation :=
  { h with stats := fun hs => by unfold Analysis.countPropagation; rw [h.stats hs] }

/-! ## New edges -/

theorem reseed (h : a.Alike cmp a') (n : NodeId) :
    (a.reseed n).Alike cmp (a'.reseed n) := by
  have hfacts := h.facts.reseed n
  have hstate : Alike cmp { a with facts := (a.facts.reseed n).2 }
      { a' with facts := (a'.facts.reseed n).2 } := { h with facts := hfacts.store }
  unfold Analysis.reseed
  dsimp only
  rw [hfacts.store.hasFresh]
  split
  · exact hstate.enqueue n
  · exact hstate

theorem refBase? (h : a.Alike cmp a') (n : NodeId) : a'.refBase? n = a.refBase? n :=
  congrArg (Option.bind · Prod.fst) (h.pag.bind_kind n NodeKind.reference?)

theorem seedEdge (h : a.Alike cmp a') (e : FlowEdge) :
    (a.seedEdge e).Alike cmp (a'.seedEdge e) := by
  have hbase : ∀ n, (((a.refBase? n).map a.reseed).getD a).Alike cmp
      (((a'.refBase? n).map a'.reseed).getD a') := by
    intro n
    rw [h.refBase?]
    cases a.refBase? n with
    | none => exact h
    | some b => exact h.reseed b
  unfold Analysis.seedEdge
  split
  · exact h.receive _ (h.facts.add _ _)
  · exact hbase _
  · exact hbase _
  · exact h.reseed _
  · exact h.reseed _
  · exact h.reseed _

theorem seed (h : a.Alike cmp a') :
    (seed a).1 = (Analysis.seed a').1 ∧ (Analysis.seed a).2.Alike cmp (Analysis.seed a').2 := by
  unfold Analysis.seed
  dsimp only
  rw [h.builder.newEdges]
  refine ⟨rfl, ?_⟩
  rw [← Array.foldl_toList, ← Array.foldl_toList]
  refine foldl (fun e h' => h'.seedEdge e) ?_ _
  exact { h with builder := { h.builder with newEdges := rfl } }

/-! ## Visits -/

theorem fitsThis {g g' : Pag} (h : g.Alike g') (this obj : NodeId) :
    Analysis.fitsThis p g' this obj = Analysis.fitsThis p g this obj := by
  unfold Analysis.fitsThis
  rw [h.entity, h.kind]

theorem acceptedBy {g g' : Pag} (h : g.Alike g') (this : NodeId) {objs objs' : ObjSet}
    (ho : objs.Same objs') :
    (Analysis.acceptedBy p g this objs).Same (Analysis.acceptedBy p g' this objs') := by
  unfold Analysis.acceptedBy
  rw [← ho.toList, funext (fitsThis h this)]
  exact ho.eraseAll _

theorem pass (h : a.Alike cmp a') {facts facts' : ObjSet} (hf : facts.Same facts')
    (dst : NodeId) : (a.pass facts dst).Alike cmp (a'.pass facts' dst) :=
  h.countPropagation.receive dst (h.facts.addAll hf dst)

theorem passThis (h : a.Alike cmp a') (n : NodeId) :
    (passThis p a n).Alike cmp (passThis p a' n) := by
  unfold Analysis.passThis
  dsimp only
  rw [h.pag.outEdges]
  exact foldl (fun dst h' => h'.pass (acceptedBy h'.pag dst (h.facts.fresh n)) dst) h _

theorem addCopy (h : a.Alike cmp a') (src dst : NodeId) :
    (a.addCopy src dst).Alike cmp (a'.addCopy src dst) := by
  obtain ⟨hnew, hpag⟩ := h.pag.addEdge .copy src dst
  unfold Analysis.addCopy
  dsimp only
  rw [hnew]
  split
  · exact (h.setPag hpag).countPropagation.receive dst (h.facts.addKnown dst src)
  · exact h

theorem joinField (h : a.Alike cmp a') (obj ref : NodeId) :
    (joinField obj a ref).Alike cmp (joinField obj a' ref) := by
  have hkey : ((a'.pag.node? ref).bind fun node => node.kind.reference?) =
      (a.pag.node? ref).bind fun node => node.kind.reference? :=
    h.pag.bind_kind ref NodeKind.reference?
  unfold Analysis.joinField
  rw [hkey]
  split
  · exact h
  · rename_i base key _
    have hmatch : Match (Builder.Alike cmp) (Build.fieldNode obj key (some ref))
      (Build.fieldNode obj key (some ref)) a.builder a'.builder :=
      Build.fieldNode_respects.apply h.builder
    obtain ⟨hfield, hbuilder⟩ := hmatch
    dsimp only
    rw [h.pag.outEdges, h.pag.inEdges]
    generalize (Build.fieldNode obj key (some ref)).run a.builder = r at *
    generalize (Build.fieldNode obj key (some ref)).run a'.builder = r' at *
    obtain ⟨field, builder⟩ := r
    obtain ⟨_, builder'⟩ := r'
    cases hfield
    refine foldl (fun src h' => h'.addCopy src _) (foldl (fun dst h' => h'.addCopy _ dst) ?_ _) _
    exact { h with builder := hbuilder }

theorem joinFields (h : a.Alike cmp a') (n : NodeId) :
    (a.joinFields n).Alike cmp (a'.joinFields n) := by
  unfold Analysis.joinFields
  dsimp only
  rw [h.pag.refsOf, ← (h.facts.fresh n).toList]
  split
  · exact h
  · refine foldl (fun {b b'} obj h' => ?_) h _
    rw [h'.pag.isObject]
    split
    · exact foldl (fun ref h'' => h''.joinField obj ref) h' _
    · exact h'

theorem passCopies (h : a.Alike cmp a') (n : NodeId) :
    (a.passCopies n).Alike cmp (a'.passCopies n) := by
  unfold Analysis.passCopies
  dsimp only
  rw [h.pag.outEdges, h.pag.outEdges]
  exact foldl (fun dst h' => h'.pass (h.facts.fresh n) dst) h _

theorem settle (h : a.Alike cmp a') (n : NodeId) :
    (a.settle n).Alike cmp (a'.settle n) := by
  have hflush : Alike cmp { a with facts := a.facts.flush n }
      { a' with facts := a'.facts.flush n } := { h with facts := h.facts.flush n }
  have hstate := hflush.setPag (hflush.pag.addPts n (h.facts.fresh n))
  unfold Analysis.settle
  dsimp only
  rw [hstate.pag.sitesOf]
  split
  · exact hstate
  · refine { hstate with arrivals := ?_ }
    show a'.arrivals.push _ = a.arrivals.push _
    rw [h.arrivals, (h.facts.fresh n).toList]

theorem visit (h : a.Alike cmp a') (n : NodeId) :
    (visit p a n).Alike cmp (visit p a' n) := by
  unfold Analysis.visit
  exact (((h.passThis n).joinFields n).passCopies n).settle n

end Alike

/-! ## The queue -/

theorem propagate_stops : StopsWhen (fun a => a.queue = []) (propagate p) where
  stop n h := by
    cases n with
    | zero =>
      unfold propagate
      rw [run_get_bind, h]
      rfl
    | succ n =>
      unfold propagate
      rw [run_get_bind, h]
      rfl
  starve h := by
    unfold propagate
    rw [run_get_bind, if_pos (by simpa using h)]
    rfl

theorem propagate_respects (n n' : Nat) (hn : cmp.strict → n' = n) :
    TryRespects cmp.strict (Alike cmp) (propagate p n) (propagate p n') := by
  refine propagate_stops.respects propagate_stops (fun a a' h => by rw [h.queue]) ?_ n n' hn
  intro n n' ih
  refine .get_bind fun a a' h => ?_
  rw [h.queue]
  refine TryRespects.apply ?_ h
  split
  · exact .pure
  · rename_i next rest _
    refine .bind (.modify fun _ _ h₁ => { h₁ with queue := rfl }) fun _ => ?_
    refine .get_bind fun a₁ a₁' h₁ => ?_
    rw [h₁.facts.hasFresh]
    refine TryRespects.apply ?_ h₁
    have hvisit : TryRespects cmp.strict (Alike cmp) (do
        modify fun a => visit p a next
        propagate p n) (do
        modify fun a => visit p a next
        propagate p n') := .bind (.modify fun _ _ h₂ => h₂.visit next) fun _ => ih
    dsimp only
    split
    · refine .get_bind fun a₂ a₂' h₂ => ?_
      have hnode : (a₂'.pag.node? next).isNone = (a₂.pag.node? next).isNone := by
        rcases h₂.pag.cases next with ⟨x, y, hx, hy, -⟩ | ⟨hx, hy⟩ <;> rw [hx, hy]
        rfl
      rw [hnode]
      refine TryRespects.apply ?_ h₂
      split
      · exact .bind .throw fun _ => hvisit
      · exact hvisit
    · exact ih

end PointsTo.Analysis
