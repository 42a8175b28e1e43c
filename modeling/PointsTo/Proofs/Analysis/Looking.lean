import PointsTo.Analysis.Solve
import PointsTo.Proofs.Actions.Library
import PointsTo.Proofs.Analysis.Calls

/-!
# What looking at calls asks of the builder

An analysis looks at calls by having its builder make nodes, record and connect calls, and ask
models, in any order. Beside that it counts, and takes what was noted for it from the logs. So what
each of these guarantees of a builder (`Setting.LookGuarantees`), looking at calls guarantees of the
analysis, however that ends, if it goes over from builders to analyses (`Analysis.Lifts`).
-/

namespace PointsTo

variable {s : Setting} {o : Outcomes} {R : Builder → Builder → Prop}

/-- Whatever looking at calls asks of the builder keeps to `R`. -/
structure Setting.LookGuarantees (s : Setting) (o : Outcomes) (R : Builder → Builder → Prop) :
    Prop where
  forget : ∀ b : Builder, R b { b with newSites := #[] }
  func : ∀ {m missing}, Guarantees R (Build.funcOf s.program m missing)
  call : ∀ {src dst stmt kind}, Guarantees R (Build.addCall src dst stmt kind)
  unhandled : ∀ {m}, Guarantees R (Build.addUnhandled m)
  watch : ∀ {c index}, Guarantees R (Build.watchArg s.program c index)
  binding : ∀ {c : ModelCall} {at_ obj callee fn}, c.OfProgram s.program →
    Guarantees R (Analysis.resolvedBinding s.program c at_ obj callee fn)
  connect : ∀ {c}, GuaranteesOn o R (Build.connect s.program (Build.enterNow s) c)
  models : ∀ {c : ModelCall} {role obj}, c.OfProgram s.program →
    GuaranteesOn o R (Build.runModels s c role obj)

/-- What becomes of the builder does not matter. -/
theorem Setting.lookGuarantees_anyChange (s : Setting) : s.LookGuarantees o AnyChange :=
  ⟨fun _ => trivial, fun _ => trivial, fun _ => trivial, fun _ => trivial, fun _ => trivial,
    fun _ _ => trivial, fun _ _ => trivial, fun _ _ _ => trivial⟩

namespace Analysis

/-- If only its builder changes, and that by `R`, the analysis changes by `S`. So it does by
counting, and by taking what has arrived. -/
structure Lifts (R : Builder → Builder → Prop) (S : Analysis → Analysis → Prop) : Prop where
  builder : ∀ {a : Analysis} {b : Builder}, R a.builder b → S a { a with builder := b }
  count : ∀ a : Analysis,
    S a { a with stats := { a.stats with dynCallsResolved := a.stats.dynCallsResolved + 1 } }
  arrivals : ∀ a : Analysis, S a { a with arrivals := #[] }

variable {S : Analysis → Analysis → Prop} {c : ModelCall}

namespace Lifts

variable {α : Type} (hc : Lifts R S)
include hc

theorem build {step : TryBuild α} (h : GuaranteesOn o R step) : GuaranteesOn o S (build step) :=
  fun a hcount => hc.builder (h a.builder hcount)

theorem build_lift {step : Build α} (h : Guarantees R step) :
    GuaranteesOn o S (Analysis.build (liftM step)) :=
  hc.build (.lift h)

end Lifts

/-! ## What looking at a call does -/

/-- How a call is looked at for an object, by what it waits for. -/
def lookAs (s : Setting) (c : ModelCall) (n obj : NodeId) : SiteRole → TryAnalysis Unit
  | .arg index => do
    if !(← build (Build.runModels s c (.arg index) obj)) then callBack s c obj
  | .receiver => receiverCall s c n .receiver obj
  | .unknown => receiverCall s c n .unknown obj

theorem lookAs_of_ne_arg {n obj : NodeId} {role : SiteRole} (h : ∀ index, role ≠ .arg index) :
    lookAs s c n obj role = receiverCall s c n role obj := by
  cases role with
  | arg index => exact absurd rfl (h index)
  | receiver => rfl
  | unknown => rfl

/-- What is passed are the arguments, the result and the receiver. -/
theorem resolvedBinding_guarantees [IsPreorder Builder R] {p : Program} {n obj : NodeId}
    {callee : FuncId} {fn : Option FunctionObject}
    (hargs : ∀ args index, Guarantees R (Build.argNodes p c.callerCid args index))
    (hresult : Guarantees R (Build.resultNode? p c))
    (hbase : ∀ base, c.invoke.base = some base →
      Guarantees R (Build.valueNode p c.callerCid (p.dealias base))) :
    Guarantees R (resolvedBinding p c n obj callee fn) := by
  unfold resolvedBinding
  split
  · exact .bind .get fun b => .bind (hargs _ _) fun args => .bind hresult fun result => .pure
  · dsimp only
    split
    · rename_i base h
      refine .bind (hbase base h) fun receiver => ?_
      exact .bind (hargs _ _) fun args => .bind hresult fun result => .pure
    · refine .bind .pure fun receiver => ?_
      exact .bind (hargs _ _) fun args => .bind hresult fun result => .pure

section Calls

variable (hc : Lifts R S) (hs : s.LookGuarantees o R)
include hc

theorem countResolved_lifted [IsPreorder Analysis S] {isNew : Bool} :
    GuaranteesOn o S (countResolved isNew) := by
  refine .modify fun a => ?_
  split
  · exact hc.count a
  · exact refl_of S a

include hs

theorem functionCallee_lifted [IsPreorder Builder R] {fn : FunctionObject} :
    GuaranteesOn o S (build (liftM (Build.functionCallee s.program fn))) := by
  refine hc.build_lift ?_
  unfold Build.functionCallee
  split
  · exact .pure
  · exact hs.func

/-- The callee of a call that was resolved by an object. -/
theorem callee_lifted [IsPreorder Builder R] {m : MethodSig} {fn : Option FunctionObject} :
    GuaranteesOn o S (build (match fn.bind FunctionObject.func with
      | some f => pure f
      | none => Build.funcOf s.program m .virtual)) := by
  split
  · exact hc.build .pure
  · exact hc.build_lift hs.func

theorem leaveToModels_lifted [IsPreorder Analysis S] (hm : c.OfProgram s.program) {role : SiteRole}
    {obj : NodeId} : GuaranteesOn o S (leaveToModels s c role obj) := by
  refine .bind (hc.build (hs.models hm)) fun handled => ?_
  split
  · exact .bind (hc.build_lift hs.unhandled) fun _ => .pure
  · exact .pure

variable [IsPreorder Builder R] [IsPreorder Analysis S]

theorem callResolved_lifted (hm : c.OfProgram s.program) {n obj : NodeId} {m : MethodSig}
    {fn : Option FunctionObject} : GuaranteesOn o S (callResolved s c n obj m fn) := by
  refine .bind (callee_lifted hc hs) fun callee => .bind .get fun a => ?_
  refine .bind (hc.build_lift hs.call) fun _ => .bind (countResolved_lifted hc) fun _ => ?_
  split
  · exact hc.build (.bind (.lift (hs.binding hm)) fun _ => .discard hs.connect)
  · exact .pure

theorem callBack_lifted {obj : NodeId} : GuaranteesOn o S (callBack s c obj) := by
  refine .bind .get fun a => ?_
  split
  · refine .bind (functionCallee_lifted hc hs) fun callee => ?_
    refine .bind (hc.build_lift hs.call) fun _ => .bind (countResolved_lifted hc) fun _ => ?_
    exact hc.build (.discard hs.connect)
  · exact .pure

theorem receiverCall_lifted (hm : c.OfProgram s.program) {n obj : NodeId} {role : SiteRole} :
    GuaranteesOn o S (receiverCall s c n role obj) := by
  refine .bind .get fun a => ?_
  split
  · rename_i m fn hres
    split
    · exact callResolved_lifted hc hs hm
    · have hm' : ({ c with callee := m } : ModelCall).OfProgram s.program := ⟨hm.invoke, hm.result⟩
      exact .discard (leaveToModels_lifted hc hs hm')
  · refine .bind (leaveToModels_lifted hc hs hm) fun taken => ?_
    split
    · exact hc.build (.forM fun _ _ => .lift hs.watch)
    · exact .pure

theorem lookAs_lifted (hm : c.OfProgram s.program) {n obj : NodeId} {role : SiteRole} :
    GuaranteesOn o S (lookAs s c n obj role) := by
  cases role with
  | arg index =>
    refine .bind (hc.build (hs.models hm)) fun taken => ?_
    split
    · exact callBack_lifted hc hs
    · exact .pure
  | receiver => exact receiverCall_lifted hc hs hm
  | unknown => exact receiverCall_lifted hc hs hm

theorem processSite_lifted {n obj : NodeId} {site : SiteRef} :
    GuaranteesOn o S (processSite s n site obj) := by
  unfold processSite
  dsimp only
  split
  · rename_i invoke stmt hinvoke hstmt
    have hresult : (s.program.stmt? site.stmt).bind Stmt.defValue? = stmt.defValue? := by
      rw [hstmt]
      rfl
    refine .bind .get fun a => ?_
    split
    · exact .throw
    · rename_i node hnode
      refine .bind (hc.build_lift hs.func) fun caller => .bind .get fun a => ?_
      let c : ModelCall := {
        stmt := site.stmt, caller, callerCid := node.cid
        site := siteAt a.builder.graph site.stmt
        callee := invoke.method, invoke, result := stmt.defValue? }
      have hlook : GuaranteesOn o S (lookAs s c n obj site.role) :=
        lookAs_lifted hc hs ⟨hinvoke, hresult⟩
      generalize site.role = role at hlook ⊢
      cases role with
      | arg index => exact hlook
      | receiver => exact hlook
      | unknown => exact hlook
  · exact .pure

/-- Calls are looked at, however that ends. -/
theorem resolveCalls_lifted : GuaranteesOn o S (resolveCalls s) := by
  refine .bind .get fun a => .bind (.modify hc.arrivals) fun _ => ?_
  -- First the calls that objects have arrived at, then those that are new at their nodes.
  refine .bind (.forM fun x _ => .bind .get fun a => ?_) fun _ => .bind .get fun a => ?_
  · exact .forM fun _ _ => .forM fun _ _ => processSite_lifted hc hs
  · refine .bind (.modify fun a => hc.builder (hs.forget a.builder)) fun _ => ?_
    refine .bind (.forM fun x _ => .bind .get fun a => ?_) fun _ => .bind .get fun a => .pure
    exact .forM fun _ _ => processSite_lifted hc hs

end Calls

end Analysis

end PointsTo
