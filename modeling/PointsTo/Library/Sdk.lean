import PointsTo.Library.Model

/-!
# Other library calls

Of a library method that nothing else is known of, the result is a new object for each call and
context, and functions that are passed may be called, with nothing.
-/

namespace PointsTo.Library.Sdk

open Build

def isSdkCall (p : Program) (m : MethodSig) : Bool :=
  p.isSdkMethod m && !p.hasBody m

/-- Makes the result and watches the arguments. -/
def access (p : Program) (c : ModelCall) : Build Unit := do
  if let some v := c.result then
    let obj ← nodeOf p c.callerCid (.sdkReturn c.stmt)
    discard (addEdge .address obj (← valueNode p c.callerCid v))
  c.positions.forM (watchArg p c)

/-- Calls a function object that was passed. -/
def run (p : Program) (enter : Enter) (c : ModelCall) (obj : NodeId) (fn : FunctionObject) :
    TryBuild Unit := do
  let callee ← functionCallee p fn
  callThrough p enter c (c.bindingOf callee obj fn)

def model : LibraryModel where
  name := "sdk"
  handles := isSdkCall
  onCall p c := do
    access p c
    return true
  onObject p enter c role obj := do
    if !isSdkCall p c.callee then return false
    match role with
    | .arg _ =>
      match ← functionAt? obj with
      | some fn => run p enter c obj fn; return true
      | none => return false
    | _ => access p c; return true

end PointsTo.Library.Sdk
