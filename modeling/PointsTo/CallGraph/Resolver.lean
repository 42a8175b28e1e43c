import PointsTo.CallGraph.Direct
import PointsTo.CallGraph.Dispatch

/-!
# Resolving calls from the entries

Starting from entry methods, every method reached has its calls resolved on the class hierarchy, and
what they call is reached in turn. Two precisions share this search.

* By *hierarchy*, every possible receiver class counts.
* By *rapid types*, a class counts once a reached method allocates it. A call on a class that does
  not count yet is parked, and takes effect when the class is first allocated.

## Why the search stops

A method is expanded once, when it is first taken from the queue. Expanding it queues or parks one
callee for every call and possible receiver class, and a parked call is queued once at most. So the
number of methods taken from the queue is bounded by what is queued and parked already, and the
calls of all bodies times the classes (`Resolver.bound`).
-/

namespace PointsTo

inductive Precision where
  | hierarchy
  | rapidTypes
deriving DecidableEq, Repr

/-- A call on a class that has not been allocated yet. -/
structure ParkedCall where
  cls : ClassSig
  caller : FuncId
  stmt : StmtId
  callee : FuncId
deriving DecidableEq

structure Resolver where
  precision : Precision
  graph : CallGraph
  queue : List FuncId := []
  processed : List FuncId := []
  instantiated : List ClassSig := []
  parked : List ParkedCall := []

namespace Resolver

/-- The name of the precision. -/
def name (r : Resolver) : String :=
  match r.precision with
  | .hierarchy => "cha"
  | .rapidTypes => "rta"

/-- Whether receivers of a class are to be considered. -/
def counts (r : Resolver) (c : ClassSig) : Bool :=
  r.precision == .hierarchy || r.instantiated.contains c

/-- Queues a method unless it was expanded already. -/
def push (r : Resolver) (f : FuncId) : Resolver :=
  if r.processed.contains f then r else { r with queue := r.queue ++ [f] }

/-- Records a call and queues its callee. -/
def connect (r : Resolver) (caller callee : FuncId) (stmt : StmtId) (kind : CallKind) : Resolver :=
  push { r with graph := (r.graph.addCall caller callee stmt kind).2 } callee

/-- Counts a class from now on and carries out the calls that were parked for it. -/
def instantiate (r : Resolver) (c : ClassSig) : Resolver :=
  if r.instantiated.contains c then r
  else
    let (due, parked) := r.parked.partition fun call => call.cls == c
    let r := { r with instantiated := c :: r.instantiated, parked }
    due.foldl (fun r call => r.connect call.caller call.callee call.stmt .indirect) r

/-- The class that a statement allocates. -/
def allocated? (p : Program) (stmt : StmtId) : Option ClassSig :=
  match (p.stmt? stmt).map Stmt.kind with
  | some (.assign _ right) =>
    match p.value? right with
    | some (.newObject c) => some c
    | _ => none
  | _ => none

/-- Counts the classes that the body of a method allocates. -/
def enter (p : Program) (r : Resolver) (f : FuncId) : Resolver :=
  match r.precision with
  | .hierarchy => r
  | .rapidTypes =>
    match (r.graph.methodOf? f).bind p.method? with
    | none => r
    | some decl => (decl.stmts.filterMap (allocated? p)).foldl instantiate r

/-- The callee for one possible receiver class: taken, or parked. -/
def target (p : Program) (caller : FuncId) (stmt : StmtId) (acc : List FuncId × Resolver)
    (t : ClassSig × MethodSig) : List FuncId × Resolver :=
  let (callees, r) := acc
  let (callee, graph) := r.graph.nodeFor p t.2 .virtual
  let r := { r with graph }
  if r.counts t.1 then (if callees.contains callee then callees else callees ++ [callee], r)
  else (callees, { r with parked := r.parked ++ [{ cls := t.1, caller, stmt, callee }] })

/-- The callees of a call, as far as they count now. -/
def resolve (p : Program) (r : Resolver) (caller : FuncId) (stmt : StmtId) :
    List FuncId × Resolver :=
  match p.invokeOf? stmt with
  | none => ([], r)
  | some i =>
    match p.dispatch i with
    | .fixed m =>
      let (callee, graph) := r.graph.nodeFor p m (if i.kind = .named then .blank else .virtual)
      ([callee], { r with graph })
    | .virtual targets => targets.foldl (target p caller stmt) ([], r)

/-- Resolves the call of a statement and follows it. -/
def followStmt (p : Program) (caller : FuncId) (r : Resolver) (stmt : StmtId) : Resolver :=
  match p.invokeOf? stmt with
  | none => r
  | some i =>
    let (callees, r) := r.resolve p caller stmt
    callees.foldl (fun r callee => r.connect caller callee stmt (CallGraph.callKind i)) r

/-- Resolves the calls of a method that has a body, once. Tells whether it did. -/
def expand (p : Program) (r : Resolver) (f : FuncId) : Bool × Resolver :=
  if r.processed.contains f then (false, r)
  else
    let r := { r with processed := f :: r.processed }
    match ((r.graph.methodOf? f).bind p.method?).bind MethodDecl.body with
    | none => (false, r)
    | some body => (true, body.stmts.foldl (followStmt p f) (r.enter p f))

/-- How many methods can still come off the queue. -/
def bound (p : Program) (r : Resolver) : Nat :=
  r.queue.length + r.parked.length +
    p.methods.foldl (fun n m => n + m.stmts.length) 0 * (p.classes.size + 1)

/-- Takes methods from the queue until it is empty, and lists those that were expanded. -/
def drain (p : Program) : Nat → Resolver → List FuncId × Resolver
  | 0, r => ([], r)
  | n + 1, r =>
    match r.queue with
    | [] => ([], r)
    | f :: queue =>
      let (expanded, r) := expand p { r with queue } f
      let (reached, r) := drain p n r
      (if expanded then f :: reached else reached, r)

/-- Resolves everything that is reached from `entries`; lists the methods reached in order. -/
def start (p : Program) (r : Resolver) (entries : List FuncId) : List FuncId × Resolver :=
  let r := { r with queue := r.queue ++ entries }
  drain p (r.bound p) r

end Resolver

namespace CallGraph

/-- The direct calls of the program, and what is reached from the entries. -/
def addResolved (g : CallGraph) (p : Program) (precision : Precision) (entries : List MethodSig) :
    List FuncId × CallGraph :=
  let (ids, graph) := (g.addProgram p).setEntries p entries
  let (reached, r) := Resolver.start p { precision, graph } ids
  (reached, r.graph)

end CallGraph

end PointsTo
