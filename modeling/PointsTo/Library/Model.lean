import PointsTo.Builder.Connect

/-!
# Models of library calls

A method without a body is a library method, and what it does to pointers is described by a model.
A model gets two chances at a call: when the call is laid out and its callee is known to have no
body, and whenever a new object reaches the receiver of the call, or an argument that a model
asked to watch.

Models are asked in order, and the first that takes the call is the last that is asked.
-/

namespace PointsTo

/-- A call as the models see it. -/
structure ModelCall where
  stmt : StmtId
  caller : FuncId
  callerCid : ContextId
  site : CallSiteId
  /-- The callee found, or else the one declared. -/
  callee : MethodSig
  invoke : Invoke
  /-- What the result is assigned to. -/
  result : Option ValueId

namespace ModelCall

/-- The argument at a position, if it is a local. -/
def localArg? (p : Program) (c : ModelCall) (index : Nat) : Option ValueId :=
  c.invoke.args[index]?.filter p.isLocal

/-- The positions of the arguments. -/
def positions (c : ModelCall) : List Nat :=
  List.range c.invoke.args.length

/-- Whether a character can stand around the text of a constant. -/
def isQuote (c : Char) : Bool :=
  c == '"' || c == '\x27' || c == '\x60'

/-- A text without the quotes around it. -/
def unquote (s : String) : String :=
  String.ofList ((s.toList.dropWhile isQuote).reverse.dropWhile isQuote).reverse

/-- The argument at a position, if it is a constant, without quotes. -/
def constArg? (p : Program) (c : ModelCall) (index : Nat) : Option String :=
  match c.invoke.args[index]?.bind p.value? with
  | some (.constant _ text) => some (unquote text)
  | _ => none

/-- The call of `callee` with nothing passed yet. -/
def binding (c : ModelCall) (callee : FuncId) (contextObj : NodeId) : CallBinding :=
  { site := c.site, callerCid := c.callerCid, callee, contextObj := some contextObj }

/-- The call of a function object with what `bind` fixed. -/
def bindingOf (c : ModelCall) (callee : FuncId) (obj : NodeId) (fn : FunctionObject) :
    CallBinding :=
  { c.binding callee obj with thisSrc := fn.boundThis, args := fn.boundArgs }

end ModelCall

structure LibraryModel where
  name : String
  /-- Whether the model wants to see static calls of a method. -/
  handles : Program → MethodSig → Bool
  /-- Models a static call; tells whether it took it. -/
  onCall : Program → ModelCall → TryBuild Bool
  /-- Models a call for one object that reached it; tells whether it took it. -/
  onObject : Program → Enter → ModelCall → SiteRole → NodeId → TryBuild Bool :=
    fun _ _ _ _ _ => pure false

namespace Build

/-- The call graph node of the method behind a function object. -/
def functionCallee (p : Program) (fn : FunctionObject) : Build FuncId :=
  match fn.func with
  | some f => pure f
  | none => funcOf p fn.method .virtual

/-- The function object at a node. -/
def functionAt? (n : NodeId) : Build (Option FunctionObject) :=
  return (← get).pag.function? n

/-- Records a call that was found through an object, and connects it. -/
def callThrough (p : Program) (enter : Enter) (c : ModelCall) (b : CallBinding) :
    TryBuild Unit := do
  let _ ← addCall c.caller b.callee c.stmt .indirect
  discard (connect p enter b)

/-- Watches an argument, if it is a local. -/
def watchArg (p : Program) (c : ModelCall) (index : Nat) : Build Unit := do
  if let some v := c.localArg? p index then
    discard (addSite (← valueNode p c.callerCid v) { stmt := c.stmt, role := .arg index })

/-- The node of the argument at a position, if it is a local. -/
def argNode? (p : Program) (c : ModelCall) (index : Nat) : Build (Option NodeId) :=
  match c.localArg? p index with
  | some v => some <$> valueNode p c.callerCid v
  | none => pure none

/-- The node that the result is written to. -/
def resultNode? (p : Program) (c : ModelCall) : Build (Option NodeId) :=
  match c.result with
  | some v => some <$> valueNode p c.callerCid v
  | none => pure none

end Build

namespace LibraryModel

/-- Asks the models about a static call. -/
def runOnCall (p : Program) (c : ModelCall) : List LibraryModel → TryBuild Bool
  | [] => return false
  | m :: ms => do
    if m.handles p c.callee then
      if ← m.onCall p c then return true
    runOnCall p c ms

/-- Asks the models about an object that reached a call. -/
def runOnObject (p : Program) (enter : Enter) (c : ModelCall) (role : SiteRole) (obj : NodeId) :
    List LibraryModel → TryBuild Bool
  | [] => return false
  | m :: ms => do
    if ← m.onObject p enter c role obj then return true
    runOnObject p enter c role obj ms

end LibraryModel

end PointsTo
