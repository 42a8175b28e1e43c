import PointsTo.Builder.Summarize

/-!
# Connecting calls

Once a callee is known, a call is a set of edges: from the arguments to the parameters, from what
is returned to the result, from the receiver to the receiver of the callee. The callee is entered
in the context that belongs to the call.

Entering is left to the caller: while a method is being laid out, callees wait in the queue;
otherwise they are laid out at once.
-/

namespace PointsTo

/-- A call with everything that was found out about it. -/
structure CallBinding where
  site : CallSiteId
  callerCid : ContextId
  callee : FuncId
  /-- The receiver object, for contexts. -/
  contextObj : Option NodeId := none
  /-- The node that the receiver is read from. -/
  thisSrc : Option NodeId := none
  /-- The arguments with the parameters they are for. -/
  args : List (NodeId × Nat) := []
  /-- An array with all the arguments. -/
  spread : Option NodeId := none
  /-- The node that the result is written to. -/
  result : Option NodeId := none
  /-- The context of the function object that is called. -/
  functionCid : Option ContextId := none

/-- How a callee is entered. -/
abbrev Enter := FuncId → ContextId → TryBuild Unit

namespace Build

/-- Puts a method in the queue. -/
def enqueue : Enter := fun f cid =>
  modify fun b => { b with pending := b.pending ++ [(f, cid)] }

/-- The context that the callee of a call is analysed in. -/
def calleeContext (p : Program) (c : CallBinding) : TryBuild ContextId := do
  if ← isSingleton p c.callee then return Context.root
  else selectContext c.callerCid c.site c.contextObj c.callee

/-- The edges to the receiver of the callee. An arrow function has the receiver of the method it is
written in. -/
def connectThis (p : Program) (c : CallBinding) (m : MethodDecl) (cid : ContextId) :
    Build Unit := do
  if let some this := p.thisRef? m.sig then
    let dst ← valueNode p cid this
    if let some src := c.thisSrc then
      discard (addEdge .this src dst)
    if m.sig.isArrow then
      if let some outerThis := m.outer.bind p.thisLocal? then
        let src ← valueNode p (c.functionCid.getD c.callerCid) outerThis
        discard (addEdge .this src dst)

/-- The edges of a call whose callee runs in context `cid`. -/
def connectFlow (p : Program) (c : CallBinding) (m : MethodDecl) (cid : ContextId) :
    Build Unit := do
  let params := p.params m.sig
  c.args.forM fun arg => do
    if let some param := params.lookup arg.2 then
      discard (addEdge .copy arg.1 (← valueNode p cid param))
  if let some src := c.spread then
    params.forM fun param => do
      discard (addEdge .load src (← valueNode p cid param.2))
  if let some dst := c.result then
    (p.returnValues m.sig).forM fun v => do
      discard (addEdge .copy (← valueNode p cid v) dst)
  connectThis p c m cid

/-- Connects a call. Answers the context of the callee, or nothing if it has no body. -/
def connect (p : Program) (enter : Enter) (c : CallBinding) : TryBuild (Option ContextId) := do
  let sig ← methodOf c.callee
  match (p.method? sig).filter MethodDecl.hasBody with
  | none => return none
  | some m =>
    let cid ← calleeContext p c
    enter c.callee cid
    connectFlow p c m cid
    return some cid

end Build

end PointsTo
