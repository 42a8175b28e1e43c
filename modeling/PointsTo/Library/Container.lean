import PointsTo.Library.Model

/-!
# Arrays, maps, sets and lists

A container keeps everything in one element node, the same that indexing reads and writes. Callbacks
get every element of every container they are called on, whichever of callback and container was
known first.
-/

namespace PointsTo.Library.Container

open Build

/-- These store all their arguments. -/
def appenders : List String :=
  ["push", "unshift", "add", "offer", "append", "addFirst", "addLast", "fill"]

/-- These store their last argument; the others are keys. -/
def keyedStores : List String :=
  ["set", "put", "insert", "setValueAt"]

/-- The result is an element. -/
def loaders : List String :=
  ["pop", "shift", "get", "at", "find", "first", "last", "getFirst", "getLast", "peek", "poll",
    "getValueAt", "removeFirst", "removeLast"]

/-- The result is the container itself. -/
def inPlace : List String :=
  ["reverse", "sort"]

/-- The result is a new array with the elements. -/
def copiers : List String :=
  ["slice", "concat", "filter"]

/-- The first argument is called on the elements. -/
def visitors : List String :=
  ["forEach", "map", "filter", "some", "every", "find", "findIndex"]

def isContainerMethod (name : String) : Bool :=
  appenders.contains name || keyedStores.contains name || loaders.contains name ||
    inPlace.contains name || copiers.contains name || visitors.contains name

/-- The positions of the arguments that are stored. -/
def storedPositions (c : ModelCall) : List Nat :=
  let name := c.invoke.method.name
  if appenders.contains name then c.positions
  else if keyedStores.contains name && !c.invoke.args.isEmpty then [c.invoke.args.length - 1]
  else []

/-- Calls a function object on the elements. -/
def visit (p : Program) (enter : Enter) (c : ModelCall) (elem obj : NodeId) : TryBuild Unit := do
  if let some fn ← functionAt? obj then
    let callee ← functionCallee p fn
    callThrough p enter c { c.bindingOf callee obj fn with
      args := fn.boundArgs ++ [(elem, fn.argOffset)] }

/-- Adds an argument of `concat` to a new array: the elements of an array, or the argument
itself. -/
def concatArg (p : Program) (c : ModelCall) (newElem : NodeId) (index : Nat) : Build Unit := do
  if let some v := c.localArg? p index then
    let n ← valueNode p c.callerCid v
    if (p.tyOf v).isArray then
      let spread ← nodeWithKind p c.callerCid (.modelSlot "concat" s!"s{c.stmt}#{index}")
        (.reference (some n) .element none)
      discard (addEdge .load spread newElem)
    else discard (addEdge .copy n newElem)

/-- The result is a new array, one for each call and context. -/
def copyInto (p : Program) (c : ModelCall) (elem : NodeId) (result : ValueId) : Build Unit := do
  let copy ← nodeWithKind p c.callerCid (.modelSlot "container" s!"s{c.stmt}")
    (.heapObj none (some .array))
  discard (addEdge .address copy (← valueNode p c.callerCid result))
  let newElem ← fieldNode copy .element none
  discard (addEdge .copy elem newElem)
  if c.invoke.method.name == "concat" then
    c.positions.forM (concatArg p c newElem)

/-- What the result of a method is. -/
def giveResult (p : Program) (c : ModelCall) (elem : NodeId) (result : ValueId) : Build Unit := do
  let name := c.invoke.method.name
  if loaders.contains name then
    discard (addEdge .copy elem (← valueNode p c.callerCid result))
  else if inPlace.contains name then
    if let some base := c.invoke.base then
      let src ← valueNode p c.callerCid base
      discard (addEdge .copy src (← valueNode p c.callerCid result))
  else if copiers.contains name then copyInto p c elem result

/-- Models a method of a container. -/
def onContainer (p : Program) (enter : Enter) (c : ModelCall) (obj : NodeId) : TryBuild Unit := do
  let elem ← fieldNode obj .element none
  (storedPositions c).forM fun index => do
    if let some src ← argNode? p c index then discard (addEdge .copy src elem)
  if let some result := c.result then giveResult p c elem result
  if visitors.contains c.invoke.method.name then
    if let some n ← argNode? p c 0 then
      discard (addSite n { stmt := c.stmt, role := .arg 0 })
      ((← get).pag.ptsOf n).forM (visit p enter c elem)

/-- Calls a new callback on all containers that are known. -/
def onCallback (p : Program) (enter : Enter) (c : ModelCall) (base : ValueId) (obj : NodeId) :
    TryBuild Bool := do
  let receiver ← valueNode p c.callerCid base
  let g := (← get).pag
  let containers := (g.ptsOf receiver).filter g.isContainer
  containers.forM fun o => do visit p enter c (← fieldNode o .element none) obj
  return !containers.isEmpty

def model : LibraryModel where
  name := "container"
  handles _ _ := false
  onCall _ _ := pure false
  onObject p enter c role obj := do
    if !isContainerMethod c.invoke.method.name then return false
    match role with
    | .receiver | .unknown =>
      if (← get).pag.isContainer obj then
        onContainer p enter c obj
        return true
      else return false
    | .arg 0 =>
      match c.invoke.base with
      | some base =>
        if visitors.contains c.invoke.method.name then onCallback p enter c base obj
        else return false
      | none => return false
    | .arg _ => return false

end PointsTo.Library.Container
