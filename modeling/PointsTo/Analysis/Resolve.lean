import PointsTo.Analysis.Basic
import PointsTo.CallGraph.Dispatch

/-!
# Resolving calls by object

When an object reaches the node that a call waits at, the callee can be told: the function itself
for a call through a pointer, the method that the class of the object has for a call on a
receiver. Calls that cannot be told this way are left to the models, and functions that were
passed to calls that nobody knows may be called.

A call that would close a cycle of calls is recorded, but the callee is not entered again.
-/

namespace PointsTo

/-- The callee of a call for one object, with the function object that it was found through. -/
def Program.resolve? (p : Program) (g : Pag) (i : Invoke) (obj : NodeId) :
    Option (MethodSig × Option FunctionObject) :=
  match i.kind, (g.node? obj).map Node.kind with
  | .pointer, some (.function fn) => some (fn.method, some fn)
  | .member, some (.heapObj (some c) _) =>
    let declared := p.findMethod? i.method.owner i.method.name
    let dynamic := p.findMethod? c i.method.name
    let target :=
      if p.isSuperCall i then declared
      else if i.method.isConstructor then declared.or dynamic
      else dynamic
    target.map fun m => (m, none)
  | _, _ => none

namespace Analysis

open Build

/-- Counts one more pair of methods that call each other through an object. -/
def countResolved (isNew : Bool) : TryAnalysis Unit :=
  modify fun a =>
    if isNew then
      { a with stats := { a.stats with dynCallsResolved := a.stats.dynCallsResolved + 1 } }
    else a

/-- What a call passes to a callee that was found through `obj`, which reached the node `at_`. -/
def resolvedBinding (p : Program) (c : ModelCall) (at_ obj : NodeId) (callee : FuncId) :
    Option FunctionObject → Build CallBinding
  | some fn => do
    let functionCid := ((← get).pag.node? obj).map Node.cid
    let args ← argNodes p c.callerCid c.invoke.args fn.argOffset
    let result ← resultNode? p c
    return { c.bindingOf callee obj fn with args := fn.boundArgs ++ args, result, functionCid }
  | none => do
    let receiver ← match c.invoke.base with
      | some base => valueNode p c.callerCid (p.dealias base)
      | none => pure at_
    let args ← argNodes p c.callerCid c.invoke.args 0
    let result ← resultNode? p c
    return { c.binding callee obj with thisSrc := some receiver, args, result }

/-- Follows a call to a method with a body. -/
def callResolved (s : Setting) (c : ModelCall) (at_ obj : NodeId) (m : MethodSig)
    (fn : Option FunctionObject) : TryAnalysis Unit := do
  let p := s.program
  let callee ← build <| match fn.bind FunctionObject.func with
    | some f => pure f
    | none => funcOf p m .virtual
  let graph := (← get).builder.graph
  let isRecursive := callee == c.caller || graph.reachable callee c.caller
  countResolved (← build (addCall c.caller callee c.stmt .indirect))
  if !isRecursive then
    build do discard (connect p (enterNow s) (← resolvedBinding p c at_ obj callee fn))

/-- Calls a function that was passed to a call that nobody knows. -/
def callBack (s : Setting) (c : ModelCall) (obj : NodeId) : TryAnalysis Unit := do
  if let some fn := (← get).pag.function? obj then
    let callee ← build (functionCallee s.program fn)
    countResolved (← build (addCall c.caller callee c.stmt .indirect))
    build (discard (connect s.program (enterNow s) (c.bindingOf callee obj fn)))

/-- The id of the call that a statement makes. -/
def siteAt (g : CallGraph) (stmt : StmtId) : CallSiteId :=
  match g.dynSiteAt? stmt, g.sitesAt stmt with
  | some d, _ => d.id
  | none, site :: _ => site.id
  | none, [] => 0

/-- Leaves a call to the models; if they pass, it counts as unhandled. -/
def leaveToModels (s : Setting) (c : ModelCall) (role : SiteRole) (obj : NodeId) :
    TryAnalysis Bool := do
  let handled ← build (runModels s c role obj)
  if !handled then build (addUnhandled c.callee)
  return handled

/-- Looks at a waiting call for one object that reached the node it waits at. -/
def processSite (s : Setting) (n : NodeId) (site : SiteRef) (obj : NodeId) : TryAnalysis Unit := do
  let p := s.program
  match p.invokeOf? site.stmt, p.stmt? site.stmt with
  | some invoke, some stmt =>
    match (← get).pag.node? n with
    | none => throw (.missingNode n)
    | some node =>
      let caller ← build (funcOf p stmt.method .blank)
      let c : ModelCall := {
        stmt := site.stmt, caller, callerCid := node.cid
        site := siteAt (← get).builder.graph site.stmt
        callee := invoke.method, invoke, result := stmt.defValue? }
      match site.role with
      | .arg _ => if !(← build (runModels s c site.role obj)) then callBack s c obj
      | _ =>
        match p.resolve? (← get).pag invoke obj with
        | some (m, fn) =>
          if p.hasBody m then callResolved s c n obj m fn
          else discard (leaveToModels s { c with callee := m } site.role obj)
        | none =>
          if !(← leaveToModels s c site.role obj) then
            build (c.positions.forM fun index => (watchArg p c index : Build Unit))
  | _, _ => return

/-- Looks at all calls that objects have reached, and at new calls at nodes that have objects. Tells
whether this added anything. -/
def resolveCalls (s : Setting) : TryAnalysis Bool := do
  let arrivals := (← get).arrivals
  modify fun a => { a with arrivals := #[] }
  arrivals.toList.forM fun (n, objs) => do
    ((← get).pag.sitesOf n).forM fun site => objs.forM (processSite s n site)
  let newSites := (← get).builder.newSites
  modify fun a => { a with builder := { a.builder with newSites := #[] } }
  newSites.toList.forM fun (n, site) => do
    ((← get).pag.ptsOf n).forM (processSite s n site)
  let b := (← get).builder
  return !b.newEdges.isEmpty || !b.newSites.isEmpty

end Analysis

end PointsTo
