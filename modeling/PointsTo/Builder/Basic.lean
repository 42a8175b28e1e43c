import PointsTo.CallGraph.Direct
import PointsTo.Failure
import PointsTo.Pag.Summary
import PointsTo.Program.Scope

/-!
# Building the graph

The builder owns the graph and everything that decides how it grows: the call graph, the contexts,
the summaries, and the methods already laid out. It logs every edge and every waiting call that it
adds, for the solver to pick up.

Some places are shared by all contexts and have one node each: static fields, the global object and
exports. The fields of an object have one node for each name, in a context that only depends on
whether the object is a container.

*Links* make sure that copies of a captured or exported local are complete: every node of the local,
made before or after the link, gets an edge to the target.
-/

namespace PointsTo

structure Builder where
  pag : Pag
  graph : CallGraph
  contexts : ContextTable
  summaries : List (FuncId × Summary) := []
  /-- The methods laid out, with the contexts they were laid out in. -/
  built : List (ContextId × FuncId) := []
  /-- The methods still to be laid out. -/
  pending : List (FuncId × ContextId) := []
  /-- Values with an edge that all their nodes get. -/
  links : List (ValueId × EdgeKind × NodeId) := []
  /-- The methods for which it was asked whether they share what they return, with the answer. -/
  singletons : List (FuncId × Bool) := []
  /-- Methods without a body that nothing is known of. -/
  unhandled : List MethodSig := []
  newEdges : Array FlowEdge := #[]
  newSites : Array (NodeId × SiteRef) := #[]

/-- Steps that always succeed. -/
abbrev Build := StateM Builder

/-- Steps that may fail. The state then is what the failure left. -/
abbrev TryBuild := ExceptT Failure Build

namespace Builder

def ofGraph (graph : CallGraph) (backing : Backing) (sensitivity : Sensitivity) (k : Nat) :
    Builder where
  pag := { backing }
  graph := graph
  contexts := { sensitivity, k }

def summary? (b : Builder) (f : FuncId) : Option Summary :=
  b.summaries.lookup f

/-- The methods laid out in some context, ascending. -/
def reached (b : Builder) : List FuncId :=
  Ascending.ofList (b.built.map (·.2))

/-- The unhandled methods in order. -/
def unhandledMethods (b : Builder) : List MethodSig :=
  sortedMethods b.unhandled

end Builder

namespace Build

/-! ## Call graph and contexts -/

/-- The call graph node of a method. -/
def funcOf (p : Program) (m : MethodSig) (missing : FuncKind) : Build FuncId :=
  modifyGet fun b =>
    let (f, graph) := b.graph.nodeFor p m missing
    (f, { b with graph })

/-- Records a call; tells whether it is the first between the two methods. -/
def addCall (src dst : FuncId) (stmt : StmtId) (kind : CallKind) : Build Bool :=
  modifyGet fun b =>
    let (isNew, graph) := b.graph.addCall src dst stmt kind
    (isNew, { b with graph })

/-- The method of a call graph node. -/
def methodOf (f : FuncId) : TryBuild MethodSig := do
  match (← get).graph.methodOf? f with
  | some m => return m
  | none => throw (.missingFunc f)

def entryContext (f : FuncId) : Build ContextId :=
  modifyGet fun b =>
    let (cid, contexts) := b.contexts.entry f
    (cid, { b with contexts })

def selectContext (caller : ContextId) (site : CallSiteId) (obj : Option NodeId)
    (callee : FuncId) : Build ContextId :=
  modifyGet fun b =>
    let (cid, contexts) := b.contexts.select caller site obj callee
    (cid, { b with contexts })

def addUnhandled (m : MethodSig) : Build Unit :=
  modify fun b => if b.unhandled.contains m then b else { b with unhandled := b.unhandled ++ [m] }

/-! ## Edges, waiting calls, links -/

/-- Adds an edge and logs it; tells whether it is new. -/
def addEdge (kind : EdgeKind) (src dst : NodeId) : Build Bool :=
  modifyGet fun b =>
    let (isNew, pag) := b.pag.addEdge kind src dst
    if isNew then (true, { b with pag, newEdges := b.newEdges.push { kind, src, dst } })
    else (false, b)

/-- Registers a waiting call and logs it; tells whether it is new. -/
def addSite (n : NodeId) (site : SiteRef) : Build Bool :=
  modifyGet fun b =>
    let (isNew, pag) := b.pag.addSite n site
    if isNew then (true, { b with pag, newSites := b.newSites.push (n, site) }) else (false, b)

/-- Gives every node of a value, now and later, an edge to `target`. -/
def link (v : ValueId) (target : NodeId) (kind : EdgeKind) : Build Unit := do
  let b ← get
  unless b.links.contains (v, kind, target) do
    set { b with links := b.links ++ [(v, kind, target)] }
    (b.pag.nodesOf v).forM fun n => discard (addEdge kind n target)

/-- Draws the edges that a new node has coming. -/
def onNewNode (p : Program) (n : NodeId) (e : Entity) : Build Unit := do
  match e with
  | .value v =>
    if let some (.captured env name) := p.value? v then
      if let some x := p.captured? env name then
        link x n .interprocedural
    let coming := (← get).links.filter fun l => l.1 = v
    coming.forM fun l => discard (addEdge l.2.1 n l.2.2)
  | _ => pure ()

/-! ## Nodes -/

/-- The node of an entity in exactly this context. -/
def nodeWithKind (p : Program) (cid : ContextId) (e : Entity) (kind : NodeKind) : Build NodeId := do
  let ((n, isNew), pag) := (← get).pag.addNode cid e kind
  modify fun b => { b with pag }
  if isNew then onNewNode p n e
  return n

/-- The entity that a value stands for. -/
def entityOf (p : Program) (v : ValueId) : Entity :=
  match p.value? v with
  | some .globalThis => .globalThis
  | some (.staticRef field) => .staticField field
  | _ => .value v

/-- The context that the node of an entity belongs to. -/
def contextOf (g : Pag) (cid : ContextId) : Entity → ContextId
  | .staticField _ | .globalThis | .exported .. => Context.root
  | .objField obj _ => g.fieldContext obj
  | _ => cid

/-- The kind of the node of a value; `baseNode` finds the node of the value that is read through. -/
def kindOfValue (p : Program) (baseNode : ValueId → Build (Option NodeId)) (v : ValueId) :
    Build NodeKind := do
  match p.value? v with
  | some (.param index _) => return .param index
  | some (.thisRef _) => return .thisRef
  | some (.newObject c) => return .heapObj (some c) (ContainerKind.ofClass? c)
  | some (.newArray _) => return .heapObj none (some .array)
  | some (.functionRef m) => return .function { method := m, func := some (← funcOf p m .blank) }
  | some .globalThis => return .globalThis
  | some (.fieldRef base field) => return .reference (← baseNode base) (.ofSig field) none
  | some (.elementRef base _) => return .reference (← baseNode base) .element none
  | some (.staticRef field) => return .reference none (.ofSig field) none
  | some (.captured _ name) => return .reference none (.named name) none
  | _ => return .localVar

def kindOf (p : Program) (baseNode : ValueId → Build (Option NodeId)) : Entity → Build NodeKind
  | .value v => kindOfValue p baseNode v
  | .staticField field => return .reference none (.ofSig field) none
  | .objField obj key => return .reference (some obj) key none
  | .globalThis => return .globalThis
  | .exported .. => return .exported
  | .sdkReturn _ => return .heapObj none none
  | .boundFunction .. | .modelSlot .. => return .localVar

/-- The node of an entity, made on the first request. -/
def obtain (p : Program) (baseNode : ContextId → ValueId → Build (Option NodeId)) (cid : ContextId)
    (e : Entity) : Build NodeId := do
  let g := (← get).pag
  let cid := contextOf g cid e
  match g.find? cid e with
  | some n => return n
  | none => nodeWithKind p cid e (← kindOf p (baseNode cid) e)

/-- The node of an entity that is read through at most `depth` others. -/
def nodeWithin (p : Program) : Nat → ContextId → Entity → Build NodeId
  | 0, cid, e => obtain p (fun _ _ => pure none) cid e
  | depth + 1, cid, e =>
    obtain p (fun cid base => some <$> nodeWithin p depth cid (entityOf p base)) cid e

/-- How many values an entity can be read through: values refer to earlier ones only. -/
def depth : Entity → Nat
  | .value v => v
  | _ => 0

/-- The node of an entity. -/
def nodeOf (p : Program) (cid : ContextId) (e : Entity) : Build NodeId :=
  nodeWithin p (depth e) cid e

/-- The node of a value. -/
def valueNode (p : Program) (cid : ContextId) (v : ValueId) : Build NodeId :=
  nodeOf p cid (entityOf p v)

/-- The node of a field of an object. -/
def fieldNode (obj : NodeId) (key : FieldKey) (cloneOf : Option NodeId) : Build NodeId :=
  modifyGet fun b =>
    let ((n, _), pag) := b.pag.addNode (b.pag.fieldContext obj) (.objField obj key)
      (.reference (some obj) key cloneOf)
    (n, { b with pag })

/-- The nodes of the arguments that are locals, with the parameters they are for. -/
def argNodes (p : Program) (cid : ContextId) : List ValueId → Nat → Build (List (NodeId × Nat))
  | [], _ => return []
  | a :: args, index => do
    if p.isLocal a then
      let n ← valueNode p cid a
      return (n, index) :: (← argNodes p cid args (index + 1))
    else argNodes p cid args (index + 1)

end Build

end PointsTo
