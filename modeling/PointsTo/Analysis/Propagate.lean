import PointsTo.Analysis.Basic
import PointsTo.Program.Hierarchy

/-!
# Passing facts on

A node with fresh facts is visited: receivers that fit go along `this` edges, the objects get
nodes for the fields that are accessed through the node, and everything goes along the copies.
After that the facts count as propagated and are shown on the node.

Between a field of an object and what is read from it or written to it there is a copy, which is
drawn when the object first reaches the base of the access.
-/

namespace PointsTo.Analysis

/-! ## What new edges ask for -/

/-- Offers all facts of a node once more. -/
def reseed (a : Analysis) (n : NodeId) : Analysis :=
  let a := { a with facts := (a.facts.reseed n).2 }
  if a.facts.hasFresh n then a.enqueue n else a

/-- The node that an access reads through. -/
def refBase? (a : Analysis) (n : NodeId) : Option NodeId :=
  ((a.pag.node? n).bind fun node => node.kind.reference?).bind Prod.fst

/-- Brings in a new edge: an object is a fact, and facts that are there already take the new way. -/
def seedEdge (a : Analysis) (e : FlowEdge) : Analysis :=
  match e.kind with
  | .address => a.receive e.dst (a.facts.add e.dst e.src)
  | .load => ((a.refBase? e.src).map a.reseed).getD a
  | .write => ((a.refBase? e.dst).map a.reseed).getD a
  | .copy | .this | .interprocedural => a.reseed e.src

/-- Brings in all edges that are new; tells whether there were any. -/
def seed (a : Analysis) : Bool × Analysis :=
  let edges := a.builder.newEdges
  let a := { a with builder := { a.builder with newEdges := #[] } }
  (!edges.isEmpty, edges.foldl seedEdge a)

/-! ## Visiting a node -/

/-- Whether an object can be the receiver at a node: an object of a declared class has to inherit
from the declared class of the method. -/
def fitsThis (p : Program) (g : Pag) (this obj : NodeId) : Bool :=
  match (g.node? this).map Node.entity, (g.node? obj).map Node.kind with
  | some (.value v), some (.heapObj (some c) _) =>
    match p.value? v with
    | some (.thisRef (.object d)) =>
      (p.class? c).isNone || (p.class? d).isNone || p.isSubclassOf c d
    | _ => true
  | _, _ => true

/-- The receivers among some objects. -/
def acceptedBy (p : Program) (g : Pag) (this : NodeId) (objs : ObjSet) : ObjSet :=
  objs.eraseAll (objs.toList.filter fun o => !fitsThis p g this o)

/-- Passes facts along one edge. -/
def pass (facts : ObjSet) (a : Analysis) (dst : NodeId) : Analysis :=
  let a := a.countPropagation
  a.receive dst (a.facts.addAll dst facts)

/-- Passes receivers on. -/
def passThis (p : Program) (a : Analysis) (n : NodeId) : Analysis :=
  let fresh := a.facts.freshOf n
  (a.pag.outEdges .this n).foldl (fun a dst => a.pass (acceptedBy p a.pag dst fresh) dst) a

/-- Draws a copy that was not there, and passes on everything that is known at its source. -/
def addCopy (a : Analysis) (src dst : NodeId) : Analysis :=
  let (isNew, pag) := a.pag.addEdge .copy src dst
  if isNew then
    let a := (a.setPag pag).countPropagation
    a.receive dst (a.facts.addKnown dst src)
  else a

/-- Draws the copies between a field of an object and what an access reads into and writes from. -/
def joinField (obj : NodeId) (a : Analysis) (ref : NodeId) : Analysis :=
  match (a.pag.node? ref).bind fun node => node.kind.reference? with
  | none => a
  | some (_, key) =>
    let loads := a.pag.outEdges .load ref
    let writes := a.pag.inEdges .write ref
    let (field, builder) := (Build.fieldNode obj key (some ref)).run a.builder
    let a := { a with builder }
    let a := loads.foldl (fun a dst => a.addCopy field dst) a
    writes.foldl (fun a src => a.addCopy src field) a

/-- Joins the fields of the fresh objects with the accesses through a node. -/
def joinFields (a : Analysis) (n : NodeId) : Analysis :=
  let refs := a.pag.refsOf n
  if refs.isEmpty then a
  else (a.facts.freshOf n).toList.foldl (fun a obj =>
    if a.pag.isObject obj then refs.foldl (joinField obj) a else a) a

/-- Passes facts along the copies. -/
def passCopies (a : Analysis) (n : NodeId) : Analysis :=
  let fresh := a.facts.freshOf n
  let targets := a.pag.outEdges .copy n ++ a.pag.outEdges .interprocedural n
  targets.foldl (fun a dst => a.pass fresh dst) a

/-- Counts the fresh facts as propagated, shows them, and notes them for the calls that wait. -/
def settle (a : Analysis) (n : NodeId) : Analysis :=
  let fresh := a.facts.freshOf n
  let a := { a with facts := a.facts.flush n }
  let a := a.setPag (a.pag.addPts n fresh)
  if (a.pag.sitesOf n).isEmpty then a
  else { a with arrivals := a.arrivals.push (n, fresh.toList) }

/-- Visits a node with fresh facts. -/
def visit (p : Program) (a : Analysis) (n : NodeId) : Analysis :=
  let a := passThis p a n
  let a := a.joinFields n
  let a := a.passCopies n
  a.settle n

/-- Visits the nodes in the queue, and those that they queue. -/
def propagate (p : Program) : Nat → TryAnalysis Unit
  | 0 => do if !(← get).queue.isEmpty then throw .outOfFuel
  | fuel + 1 => do
    match (← get).queue with
    | [] => return
    | n :: rest =>
      modify fun a => { a with queue := rest }
      if (← get).facts.hasFresh n then
        if ((← get).pag.node? n).isNone then throw (.missingNode n)
        modify fun a => visit p a n
      propagate p fuel

end PointsTo.Analysis
