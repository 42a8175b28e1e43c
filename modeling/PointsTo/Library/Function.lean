import PointsTo.Library.Model

/-!
# Calling and binding function objects

`f.call(receiver, a, b)` and `f.apply(receiver, [a, b])` call the function behind `f`;
`f.bind(receiver, a)` makes a function that remembers the receiver and the leading arguments. A
receiver that was fixed once stays fixed.
-/

namespace PointsTo.Library.Function

open Build

/-- The receiver of a call: the one fixed, or else the first argument. -/
def receiver (p : Program) (c : ModelCall) (fn : FunctionObject) : Build (Option NodeId) :=
  match fn.boundThis with
  | some n => pure (some n)
  | none => argNode? p c 0

/-- The elements of the array with the arguments. -/
def spreadNode? (p : Program) (c : ModelCall) : Build (Option NodeId) := do
  match ← argNode? p c 1 with
  | some base =>
    some <$> nodeWithKind p c.callerCid (.modelSlot "apply" s!"s{c.stmt}")
      (.reference (some base) .element none)
  | none => return none

/-- Models `call`, or `apply` if `isApply`. -/
def invoke (p : Program) (enter : Enter) (c : ModelCall) (obj : NodeId) (fn : FunctionObject)
    (cid : ContextId) (isApply : Bool) : TryBuild Unit := do
  let callee ← functionCallee p fn
  let thisSrc ← receiver p c fn
  let spread ← if isApply then spreadNode? p c else pure none
  let rest ← if isApply then pure []
    else argNodes p c.callerCid (c.invoke.args.drop 1) fn.argOffset
  let result ← resultNode? p c
  callThrough p enter c { c.bindingOf callee obj fn with
    thisSrc, args := fn.boundArgs ++ rest, spread, result, functionCid := some cid }

/-- Models `bind`. Without a result nobody can call what it makes. -/
def bind (p : Program) (c : ModelCall) (obj : NodeId) (fn : FunctionObject) : Build Unit := do
  if let some v := c.result then
    let func ← functionCallee p fn
    let boundThis ← receiver p c fn
    let extra := c.invoke.args.drop 1
    let more ← argNodes p c.callerCid extra fn.argOffset
    let bound : FunctionObject := {
      method := fn.method, func := some func, bindStmt := some c.stmt, boundThis
      boundArgs := fn.boundArgs ++ more, argOffset := fn.argOffset + extra.length }
    let n ← nodeWithKind p c.callerCid (.boundFunction c.stmt obj) (.function bound)
    discard (addEdge .address n (← valueNode p c.callerCid v))

def onFunction (p : Program) (enter : Enter) (c : ModelCall) (obj : NodeId) (fn : FunctionObject)
    (cid : ContextId) : TryBuild Bool := do
  match c.invoke.method.name with
  | "call" => invoke p enter c obj fn cid false; return true
  | "apply" => invoke p enter c obj fn cid true; return true
  | "bind" => bind p c obj fn; return true
  | _ => return false

def model : LibraryModel where
  name := "function"
  handles _ _ := false
  onCall _ _ := pure false
  onObject p enter c role obj := do
    match role, (← get).pag.node? obj with
    | .arg _, _ | _, none => return false
    | _, some n =>
      match n.kind.function? with
      | some fn => onFunction p enter c obj fn n.cid
      | none => return false

end PointsTo.Library.Function
