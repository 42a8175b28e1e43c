import PointsTo.Library.Model

/-!
# Laying out methods

A method is laid out in a context by giving every entity of its summary a node there. Calls of known
callees are connected on the way, which asks for the callees to be laid out in turn. Such requests
wait in a queue, so that long and cyclic chains of calls need no recursion.

A method counts as laid out from the moment it is taken up, whatever becomes of it.
-/

namespace PointsTo

/-- What stays the same throughout an analysis. -/
structure Setting where
  program : Program
  /-- The models of library calls, in the order in which they are asked. -/
  models : List LibraryModel
  /-- How often each loop of the analysis may go round. -/
  fuel : Nat

namespace Build

/-- Connects a free local with what it stands for, and asks for the code that sets that up. -/
def linkFree (p : Program) (cid : ContextId) (f : FreeLocal) : TryBuild Unit := do
  let here ← valueNode p cid f.name
  match f.exported with
  | none => link f.decl here .interprocedural
  | some (file, name) =>
    let shared ← nodeOf p Context.root (.exported file name)
    link f.decl shared .copy
    discard (addEdge .interprocedural shared here)
  if let some (.localVar _ _ m) := p.value? f.decl then
    let init ← funcOf p m .blank
    enqueue init (← entryContext init)

/-- What a call of a known callee passes. -/
def staticBinding (p : Program) (cid : ContextId) (site : CallSite) (i : Invoke)
    (result : Option ValueId) : Build CallBinding := do
  let args ← argNodes p cid i.args 0
  let thisSrc ← match i.base with
    | some base => some <$> valueNode p cid (p.dealias base)
    | none => pure none
  let result ← match result with
    | some v => some <$> valueNode p cid v
    | none => pure none
  return { site := site.id, callerCid := cid, callee := site.callee, thisSrc, args, result }

/-- Connects a call of a known callee, or leaves it to the models if that has no body. -/
def wireStatic (s : Setting) (cid : ContextId) (site : CallSite) : TryBuild Unit := do
  let p := s.program
  if let some i := p.invokeOf? site.stmt then
    let callee ← methodOf site.callee
    let result := (p.stmt? site.stmt).bind Stmt.defValue?
    if p.hasBody callee then
      discard (connect p enqueue (← staticBinding p cid site i result))
    else
      let call : ModelCall := {
        stmt := site.stmt, caller := site.caller, callerCid := cid, site := site.id, callee
        invoke := i, result }
      if !(← LibraryModel.runOnCall p call s.models) then addUnhandled callee

/-- Registers a call at the node of its base. -/
def registerDynamic (p : Program) (cid : ContextId) (role : SiteRole) (site : DynCallSite) :
    Build Unit := do
  if let some base := (p.invokeOf? site.stmt).bind Invoke.base then
    discard (addSite (← valueNode p cid base) { stmt := site.stmt, role })

/-- Gives a move of the summary its edge. -/
def layEdge (p : Program) (cid : ContextId) (e : SummaryEdge) : Build Unit := do
  let src ← nodeOf p cid e.src
  let dst ← nodeOf p cid e.dst
  discard (addEdge e.kind src dst)

/-- Lays out a summary in a context. -/
def layOut (s : Setting) (cid : ContextId) (summary : Summary) : TryBuild Unit := do
  let p := s.program
  summary.edges.forM fun e => (layEdge p cid e : Build Unit)
  summary.free.forM (linkFree p cid)
  summary.staticCalls.forM (wireStatic s cid)
  summary.dynamicCalls.forM fun site => (registerDynamic p cid .receiver site : Build Unit)
  summary.unknownCalls.forM fun site => (registerDynamic p cid .unknown site : Build Unit)

/-- Lays out a method in a context, once. -/
def instantiate (s : Setting) (f : FuncId) (cid : ContextId) : TryBuild Unit := do
  if !(← get).built.contains (cid, f) then
    modify fun b => { b with built := (cid, f) :: b.built }
    let _ ← summarize s.program f
    if let some summary := (← get).summary? f then layOut s cid summary

/-- Lays out what waits in the queue, and what that asks for. -/
def drain (s : Setting) : Nat → TryBuild Unit
  | 0 => do if !(← get).pending.isEmpty then throw .outOfFuel
  | n + 1 => do
    match (← get).pending with
    | [] => return
    | (f, cid) :: rest =>
      modify fun b => { b with pending := rest }
      instantiate s f cid
      drain s n

/-- Lays out a method and all that this asks for. -/
def enterNow (s : Setting) : Enter := fun f cid => do
  enqueue f cid
  drain s s.fuel

/-- Lays out an entry method; answers its context. -/
def enterEntry (s : Setting) (f : FuncId) : TryBuild ContextId := do
  let cid ← entryContext f
  enterNow s f cid
  return cid

/-- Asks the models about an object that reached a call. What they enter is laid out when they are
done. -/
def runModels (s : Setting) (c : ModelCall) (role : SiteRole) (obj : NodeId) : TryBuild Bool := do
  let handled ← LibraryModel.runOnObject s.program enqueue c role obj s.models
  drain s s.fuel
  return handled

end Build

end PointsTo
