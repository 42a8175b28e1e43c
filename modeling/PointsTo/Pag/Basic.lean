import PointsTo.CallGraph.Basic
import PointsTo.Context
import PointsTo.Pag.Entity
import PointsTo.Sets.ObjSet

/-!
# Pointer assignment graphs

A node is an entity in a context; asking twice for one gives the same node. Nodes are pointers or
objects, and labelled edges say how objects get from one to another. Nodes and edges are only ever
added, each at the end of its list, so their positions tell what was there first.

What hangs on a node is read off these lists: the edges at it, the references to its fields, and
the fields it owns. A field or a reference counts for a node only if the node was there first.
-/

namespace PointsTo

/-- A function as a value. Functions made by `bind` remember what was fixed. -/
structure FunctionObject where
  method : MethodSig
  func : Option FuncId := none
  /-- The `bind` call that made it. -/
  bindStmt : Option StmtId := none
  /-- The receiver that was fixed. -/
  boundThis : Option NodeId := none
  /-- The arguments that were fixed, with the parameter each of them is for. -/
  boundArgs : List (NodeId × Nat) := []
  /-- The parameter that the first argument of a call is for. -/
  argOffset : Nat := 0
deriving DecidableEq, Repr

inductive NodeKind where
  | localVar
  /-- An access to a field. The base is the pointer that is read through, or, for a field of an
  object, the object. Such a field remembers the access that first asked for it. -/
  | reference (base : Option NodeId) (key : FieldKey) (cloneOf : Option NodeId)
  | param (index : Nat)
  | thisRef
  | function (fn : FunctionObject)
  | heapObj (cls : Option ClassSig) (container : Option ContainerKind)
  | globalThis
  | exported
deriving DecidableEq, Repr

namespace NodeKind

/-- Whether such nodes are pointed to rather than pointing. -/
def isObject : NodeKind → Bool
  | function _ | heapObj .. | globalThis => true
  | _ => false

def function? : NodeKind → Option FunctionObject
  | function fn => some fn
  | _ => none

/-- Base and key of an access to a field. -/
def reference? : NodeKind → Option (Option NodeId × FieldKey)
  | reference base key _ => some (base, key)
  | _ => none

def name : NodeKind → String
  | localVar => "LocalVar"
  | reference .. => "RefVar"
  | param _ => "Param"
  | thisRef => "ThisRef"
  | function _ => "Function"
  | heapObj .. => "HeapObj"
  | globalThis => "GlobalThis"
  | exported => "ExportInfo"

end NodeKind

/-- What a call waits for at a node. -/
inductive SiteRole where
  /-- Receivers, or functions, of a call with a known declaration. -/
  | receiver
  /-- Receivers of a call whose declaration is unknown. -/
  | unknown
  /-- Objects passed as the argument at that position. -/
  | arg (index : Nat)
deriving DecidableEq, Repr

/-- A call that has to be looked at again when a node gets new objects. -/
structure SiteRef where
  stmt : StmtId
  role : SiteRole
deriving DecidableEq, Repr

inductive EdgeKind where
  /-- The source is an object that the target points to. -/
  | address
  | copy
  /-- From a reference to what it is read into. -/
  | load
  /-- From what is written to the reference. -/
  | write
  /-- From the receiver of a call to the receiver of the callee. -/
  | this
  /-- A copy that leaves the method. -/
  | interprocedural
deriving DecidableEq, Repr

namespace EdgeKind

def all : List EdgeKind :=
  [address, copy, load, write, this, interprocedural]

def name : EdgeKind → String
  | address => "address"
  | copy => "copy"
  | load => "load"
  | write => "write"
  | this => "this"
  | interprocedural => "interprocedural"

/-- The kind as it is shown in summaries. -/
def longName : EdgeKind → String
  | address => "Address"
  | copy => "Copy"
  | load => "Load"
  | write => "Write"
  | this => "This"
  | interprocedural => "InterProceduralCopy"

/-- The position of a kind in listings. -/
def rank : EdgeKind → Nat
  | address => 0
  | copy => 1
  | load => 2
  | write => 3
  | this => 4
  | interprocedural => 5

end EdgeKind

structure FlowEdge where
  kind : EdgeKind
  src : NodeId
  dst : NodeId
deriving DecidableEq, Repr

structure Node where
  cid : ContextId
  entity : Entity
  kind : NodeKind
  /-- The objects that the node is known to point to. -/
  pts : ObjSet
  /-- The calls that wait at the node, in the order of registration. -/
  sites : List SiteRef := []

structure Pag where
  backing : Backing
  nodes : Array Node := #[]
  edges : Array FlowEdge := #[]
  /-- Values with the accesses to their fields. -/
  baseRefs : List (ValueId × ValueId) := []

namespace Pag

/-! ## Nodes -/

def node? (g : Pag) (n : NodeId) : Option Node :=
  g.nodes[n]?

/-- The node of an entity in a context. -/
def find? (g : Pag) (cid : ContextId) (e : Entity) : Option NodeId :=
  g.nodes.findIdx? fun n => n.cid == cid && n.entity == e

/-- The node of an entity in a context, and whether it is new. The kind counts for new nodes
only. -/
def addNode (g : Pag) (cid : ContextId) (e : Entity) (kind : NodeKind) : (NodeId × Bool) × Pag :=
  match g.find? cid e with
  | some n => ((n, false), g)
  | none =>
    ((g.nodes.size, true),
      { g with nodes := g.nodes.push { cid, entity := e, kind, pts := .empty g.backing } })

/-- The nodes that satisfy a condition on id and node, ascending. -/
def nodesWhere (g : Pag) (p : NodeId → Node → Bool) : List NodeId :=
  (List.range g.nodes.size).filter fun n => (g.node? n).any (p n)

/-- The nodes of a value, in all contexts. -/
def nodesOf (g : Pag) (v : ValueId) : List NodeId :=
  g.nodesWhere fun _ n => n.entity == .value v

/-- The accesses to fields through a pointer. -/
def refsOf (g : Pag) (b : NodeId) : List NodeId :=
  g.nodesWhere fun i n =>
    b < i && !n.entity.isObjField && (n.kind.reference?.bind Prod.fst == some b)

/-- The node of a field of an object. -/
def fieldOf? (g : Pag) (obj : NodeId) (key : FieldKey) : Option NodeId :=
  (g.nodesWhere fun i n => obj < i && n.entity == .objField obj key).getLast?

/-- The keys of the fields that an object has nodes for, each once. -/
def fieldKeys (g : Pag) (obj : NodeId) : List FieldKey :=
  (g.nodes.toList.drop (obj + 1)).filterMap (fun n =>
    match n.entity with
    | .objField o key => if o = obj then some key else none
    | _ => none) |>.eraseDups

def function? (g : Pag) (n : NodeId) : Option FunctionObject :=
  (g.node? n).bind fun node => node.kind.function?

def isObject (g : Pag) (n : NodeId) : Bool :=
  (g.node? n).any fun node => node.kind.isObject

/-- Whether an object is a collection, whose elements are its field. -/
def isContainer (g : Pag) (obj : NodeId) : Bool :=
  match (g.node? obj).map Node.kind with
  | some (.heapObj _ (some _)) => true
  | _ => false

/-- The context of the fields of an object. -/
def fieldContext (g : Pag) (obj : NodeId) : ContextId :=
  if g.isContainer obj then Context.container else Context.root

/-- The objects that a node is known to point to. -/
def ptsOf (g : Pag) (n : NodeId) : List NodeId :=
  ((g.node? n).map fun node => node.pts.toList).getD []

/-- Adds to what a node is known to point to. -/
def addPts (g : Pag) (n : NodeId) (objs : ObjSet) : Pag :=
  { g with nodes := g.nodes.modify n fun node => { node with pts := (node.pts.union objs).2 } }

/-! ## Accesses to fields of values -/

/-- The accesses to fields of a value. -/
def baseRefsOf (g : Pag) (base : ValueId) : List ValueId :=
  (g.baseRefs.filter fun r => r.1 == base).map (·.2)

def addBaseRef (g : Pag) (base ref : ValueId) : Pag :=
  if g.baseRefs.contains (base, ref) then g else { g with baseRefs := g.baseRefs ++ [(base, ref)] }

/-! ## Waiting calls -/

def sitesOf (g : Pag) (n : NodeId) : List SiteRef :=
  ((g.node? n).map Node.sites).getD []

/-- Registers a call at a node; tells whether it was not there before. -/
def addSite (g : Pag) (n : NodeId) (site : SiteRef) : Bool × Pag :=
  if n < g.nodes.size && !(g.sitesOf n).contains site then
    (true, { g with
      nodes := g.nodes.modify n fun node => { node with sites := node.sites ++ [site] } })
  else (false, g)

/-! ## Edges -/

def hasEdge (g : Pag) (kind : EdgeKind) (src dst : NodeId) : Bool :=
  g.edges.contains { kind, src, dst }

/-- Adds an edge between existing nodes; tells whether it was not there before. -/
def addEdge (g : Pag) (kind : EdgeKind) (src dst : NodeId) : Bool × Pag :=
  if src < g.nodes.size && dst < g.nodes.size && !g.hasEdge kind src dst then
    (true, { g with edges := g.edges.push { kind, src, dst } })
  else (false, g)

/-- The targets of the edges out of a node, oldest first. -/
def outEdges (g : Pag) (kind : EdgeKind) (src : NodeId) : List NodeId :=
  (g.edges.toList.filter fun e => e.kind == kind && e.src == src).map FlowEdge.dst

/-- The sources of the edges into a node, oldest first. -/
def inEdges (g : Pag) (kind : EdgeKind) (dst : NodeId) : List NodeId :=
  (g.edges.toList.filter fun e => e.kind == kind && e.dst == dst).map FlowEdge.src

def edgeCount (g : Pag) (kind : EdgeKind) : Nat :=
  g.edges.countP fun e => e.kind == kind

end Pag

end PointsTo
