import PointsTo.Program.Basic
import PointsTo.Reach
import PointsTo.Sets.Ascending
import PointsTo.Text.Dot

/-!
# Call graphs

Nodes are methods, numbered in the order in which they were asked for. There is one edge for an
ordered pair of nodes, and it records every statement that makes such a call, apart by the way the
call was found. Call sites are kept beside the edges: a *static* site knows its callee, a *dynamic*
site waits for the receivers. Both take their ids from one count.

An edge may join nodes that do not exist yet; its ends then still count as known.
-/

namespace PointsTo

abbrev FuncId := Nat

abbrev CallSiteId := Nat

/-- What a node stands for. -/
inductive FuncKind where
  | real
  /-- A callee of which only the declaration is known. -/
  | virtual
  | intrinsic
  | constructor
  /-- A method without a body. -/
  | blank
deriving DecidableEq, Repr

def FuncKind.name : FuncKind → String
  | real => "Real"
  | virtual => "Virtual"
  | intrinsic => "Intrinsic"
  | constructor => "Constructor"
  | blank => "Blank"

structure FuncNode where
  method : MethodSig
  kind : FuncKind
  isSdk : Bool
deriving DecidableEq, Repr

/-- How a call was found. -/
inductive CallKind where
  | direct
  /-- A constructor call. -/
  | special
  /-- Through the receiver or a function object. -/
  | indirect
deriving DecidableEq, Repr

def CallKind.name : CallKind → String
  | direct => "Direct"
  | special => "Special"
  | indirect => "Indirect"

/-- All calls from one method to another. The statements are ascending. -/
structure CallEdge where
  src : FuncId
  dst : FuncId
  direct : List StmtId := []
  special : List StmtId := []
  indirect : List StmtId := []
deriving DecidableEq, Repr

namespace CallEdge

/-- The statements found in one way. -/
def calls (e : CallEdge) : CallKind → List StmtId
  | .direct => e.direct
  | .special => e.special
  | .indirect => e.indirect

def addCall (e : CallEdge) (stmt : StmtId) : CallKind → CallEdge
  | .direct => { e with direct := Ascending.insert stmt e.direct }
  | .special => { e with special := Ascending.insert stmt e.special }
  | .indirect => { e with indirect := Ascending.insert stmt e.indirect }

def callCount (e : CallEdge) : Nat :=
  e.direct.length + e.special.length + e.indirect.length

end CallEdge

/-- A call with a known callee. -/
structure CallSite where
  id : CallSiteId
  stmt : StmtId
  args : List ValueId
  caller : FuncId
  callee : FuncId
deriving DecidableEq, Repr

/-- A call whose callee depends on the receiver. -/
structure DynCallSite where
  id : CallSiteId
  stmt : StmtId
  args : List ValueId
  caller : FuncId
  /-- The method that the call names. -/
  potential : Option FuncId
deriving DecidableEq, Repr

/-- The same call once a callee is known. -/
def DynCallSite.toCallSite (s : DynCallSite) (callee : FuncId) : CallSite :=
  { id := s.id, stmt := s.stmt, args := s.args, caller := s.caller, callee }

structure CallGraph where
  nodes : Array FuncNode := #[]
  edges : Array CallEdge := #[]
  sites : Array CallSite := #[]
  dynSites : Array DynCallSite := #[]
  entries : List FuncId := []

namespace CallGraph

/-! ## Nodes -/

def node? (g : CallGraph) (f : FuncId) : Option FuncNode :=
  g.nodes[f]?

def methodOf? (g : CallGraph) (f : FuncId) : Option MethodSig :=
  (g.node? f).map FuncNode.method

def funcId? (g : CallGraph) (m : MethodSig) : Option FuncId :=
  g.nodes.findIdx? fun n => n.method == m

def isSdk (g : CallGraph) (f : FuncId) : Bool :=
  (g.node? f).any FuncNode.isSdk

/-- The node of a method. Kind and origin count on the first request only. -/
def addNode (g : CallGraph) (m : MethodSig) (kind : FuncKind) (isSdk : Bool) :
    FuncId × CallGraph :=
  match g.funcId? m with
  | some f => (f, g)
  | none => (g.nodes.size, { g with nodes := g.nodes.push { method := m, kind, isSdk } })

/-! ## Edges -/

def edge? (g : CallGraph) (src dst : FuncId) : Option CallEdge :=
  g.edges.find? fun e => e.src == src && e.dst == dst

def hasEdge (g : CallGraph) (src dst : FuncId) : Bool :=
  (g.edge? src dst).isSome

/-- Records a call, and tells whether it is the first one between the two methods. -/
def addCall (g : CallGraph) (src dst : FuncId) (stmt : StmtId) (kind : CallKind) :
    Bool × CallGraph :=
  match g.edges.findIdx? fun e => e.src == src && e.dst == dst with
  | some i => (false, { g with edges := g.edges.modify i fun e => e.addCall stmt kind })
  | none => (true, { g with edges := g.edges.push (({ src, dst } : CallEdge).addCall stmt kind) })

/-- Where the edges lead from and to. -/
def links (g : CallGraph) : List (FuncId × FuncId) :=
  g.edges.toList.map fun e => (e.src, e.dst)

/-- The edges by source, then by target. -/
def sortedEdges (g : CallGraph) : List CallEdge :=
  g.edges.toList.mergeSort fun a b => a.src < b.src || (a.src == b.src && a.dst ≤ b.dst)

def callees (g : CallGraph) (f : FuncId) : List FuncId :=
  Ascending.ofList (Reach.successors g.links f)

def callers (g : CallGraph) (f : FuncId) : List FuncId :=
  Ascending.ofList (Reach.successors (g.links.map fun l => (l.2, l.1)) f)

/-- Whether the id names a node or an end of an edge. -/
def knows (g : CallGraph) (f : FuncId) : Bool :=
  f < g.nodes.size || g.edges.any fun e => e.src == f || e.dst == f

/-- Whether calls lead from one method to another. A known method reaches itself. -/
def reachable (g : CallGraph) (src dst : FuncId) : Bool :=
  g.knows src && g.knows dst && (Reach.walk g.links [src] []).contains dst

/-! ## Call sites -/

/-- How many call sites there are; the next one gets this id. -/
def siteCount (g : CallGraph) : Nat :=
  g.sites.size + g.dynSites.size

def sitesAt (g : CallGraph) (stmt : StmtId) : List CallSite :=
  g.sites.toList.filter fun s => s.stmt == stmt

def dynSiteAt? (g : CallGraph) (stmt : StmtId) : Option DynCallSite :=
  g.dynSites.find? fun s => s.stmt == stmt

/-- The static site of a statement and a callee. -/
def addSite (g : CallGraph) (stmt : StmtId) (args : List ValueId) (caller callee : FuncId) :
    CallSite × CallGraph :=
  match g.sites.find? fun s => s.stmt == stmt && s.callee == callee with
  | some s => (s, g)
  | none =>
    let s : CallSite := { id := g.siteCount, stmt, args, caller, callee }
    (s, { g with sites := g.sites.push s })

/-- The dynamic site of a statement. -/
def addDynSite (g : CallGraph) (stmt : StmtId) (args : List ValueId) (caller : FuncId)
    (potential : Option FuncId) : DynCallSite × CallGraph :=
  match g.dynSiteAt? stmt with
  | some s => (s, g)
  | none =>
    let s : DynCallSite := { id := g.siteCount, stmt, args, caller, potential }
    (s, { g with dynSites := g.dynSites.push s })

/-! ## Drawing -/

/-- The graph with class, name and kind of every method. Edges to unknown nodes are left out. -/
def toDot (g : CallGraph) : String :=
  let label (n : FuncNode) : String :=
    n.method.owner.name ++ "." ++ n.method.name ++ " (" ++ n.kind.name ++ ")"
  let drawn := g.sortedEdges.filter fun e => e.src < g.nodes.size && e.dst < g.nodes.size
  Text.digraph (g.nodes.toList.map label) (drawn.map fun e => { src := e.src, dst := e.dst })

end CallGraph

end PointsTo
