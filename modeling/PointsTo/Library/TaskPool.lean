import PointsTo.Library.Model

/-!
# Tasks

`taskpool.execute(f, a, b)` and `new Task(f, a, b)` run `f` with the other arguments. The result of
`execute` counts as what `f` returns.
-/

namespace PointsTo.Library.TaskPool

open Build

def isExecute (m : MethodSig) : Bool :=
  m.owner.name == "taskpool" && m.name == "execute"

def isTask (m : MethodSig) : Bool :=
  m.owner.name == "Task" && m.isConstructor

/-- Runs a function object that reached the first argument. -/
def run (p : Program) (enter : Enter) (c : ModelCall) (obj : NodeId) (fn : FunctionObject) :
    TryBuild Unit := do
  let callee ← functionCallee p fn
  let rest ← argNodes p c.callerCid (c.invoke.args.drop 1) fn.argOffset
  let result ← if isExecute c.invoke.method then resultNode? p c else pure none
  callThrough p enter c { c.bindingOf callee obj fn with args := fn.boundArgs ++ rest, result }

def model : LibraryModel where
  name := "taskpool"
  handles _ m := isExecute m || isTask m
  onCall p c := do
    watchArg p c 0
    return true
  onObject p enter c role obj := do
    if !isExecute c.invoke.method && !isTask c.invoke.method then return false
    if role ≠ .arg 0 then
      watchArg p c 0
      return true
    match ← functionAt? obj with
    | some fn => run p enter c obj fn; return true
    | none => return false

end PointsTo.Library.TaskPool
