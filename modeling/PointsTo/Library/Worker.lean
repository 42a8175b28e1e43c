import PointsTo.Library.Model

/-!
# Messages between workers

There is one channel. What is posted goes into it, and every handler gets what is in it as its first
argument.
-/

namespace PointsTo.Library.Worker

open Build

def workerClasses : List String :=
  ["ThreadWorker", "Worker", "workerPort", "ThreadWorkerGlobalScope", "GlobalScope"]

def posters : List String :=
  ["postMessage", "postMessageWithSharedSendable"]

def handlers : List String :=
  ["onmessage", "onMessage", "addEventListener", "on"]

def isWorkerCall (m : MethodSig) : Bool :=
  workerClasses.contains m.owner.name && (posters.contains m.name || handlers.contains m.name)

def channel (p : Program) : Build NodeId :=
  nodeOf p Context.root (.modelSlot "worker" "message")

/-- Models posting, or watches the handler, which is the last argument. -/
def access (p : Program) (c : ModelCall) : Build Unit := do
  if posters.contains c.invoke.method.name then
    if let some src ← argNode? p c 0 then
      discard (addEdge .copy src (← channel p))
  else if !c.invoke.args.isEmpty then
    watchArg p c (c.invoke.args.length - 1)

/-- Runs a handler on what is in the channel. -/
def run (p : Program) (enter : Enter) (c : ModelCall) (obj : NodeId) (fn : FunctionObject) :
    TryBuild Unit := do
  let callee ← functionCallee p fn
  let message ← channel p
  callThrough p enter c { c.bindingOf callee obj fn with
    args := fn.boundArgs ++ [(message, fn.argOffset)] }

def model : LibraryModel where
  name := "worker"
  handles _ m := isWorkerCall m
  onCall p c := do
    access p c
    return true
  onObject p enter c role obj := do
    if !isWorkerCall c.invoke.method then return false
    match role with
    | .arg _ =>
      match ← functionAt? obj with
      | some fn => run p enter c obj fn; return true
      | none => return false
    | _ => access p c; return true

end PointsTo.Library.Worker
