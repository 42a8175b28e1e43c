import PointsTo.Analysis.Basic

/-!
# Positions in tables

Values, statements and nodes are named by their positions in three tables. Here is which positions
a program mentions, and which ones an analysis keeps anywhere in its state, so that one can say of
all of them that they are there (`Index.InRange`).
-/

namespace PointsTo

/-- A position in one of the tables. -/
inductive Index where
  | value (v : ValueId)
  | stmt (s : StmtId)
  | node (n : NodeId)
deriving DecidableEq, Repr

namespace Index

/-- The table is that long; there are `nodes` nodes. -/
def InRange (p : Program) (nodes : Nat) : Index → Prop
  | value v => v < p.values.size
  | stmt s => s < p.stmts.size
  | node n => n < nodes

instance (p : Program) (nodes : Nat) (i : Index) : Decidable (i.InRange p nodes) :=
  match i with
  | value v => inferInstanceAs (Decidable (v < p.values.size))
  | stmt s => inferInstanceAs (Decidable (s < p.stmts.size))
  | node n => inferInstanceAs (Decidable (n < nodes))

section InRange

variable {p : Program} {nodes : Nat}

@[simp] theorem inRange_value {v : ValueId} : (value v).InRange p nodes ↔ v < p.values.size :=
  Iff.rfl

@[simp] theorem inRange_stmt {s : StmtId} : (stmt s).InRange p nodes ↔ s < p.stmts.size :=
  Iff.rfl

@[simp] theorem inRange_node {n : NodeId} : (node n).InRange p nodes ↔ n < nodes :=
  Iff.rfl

end InRange

theorem InRange.mono {p : Program} {nodes nodes' : Nat} {i : Index} (h : i.InRange p nodes)
    (hle : nodes ≤ nodes') : i.InRange p nodes' := by
  cases i with
  | node n => exact Nat.lt_of_lt_of_le h hle
  | value v | stmt s => exact h

/-- All of the positions are in their tables. -/
def AllInRange (p : Program) (nodes : Nat) (is : List Index) : Prop :=
  ∀ i ∈ is, i.InRange p nodes

section AllInRange

variable {p : Program} {nodes : Nat} {is js : List Index} {α : Type} {xs : List α}

@[simp] theorem allInRange_nil : AllInRange p nodes [] :=
  nofun

@[simp] theorem allInRange_cons {i : Index} :
    AllInRange p nodes (i :: is) ↔ i.InRange p nodes ∧ AllInRange p nodes is :=
  List.forall_mem_cons

@[simp] theorem allInRange_append :
    AllInRange p nodes (is ++ js) ↔ AllInRange p nodes is ∧ AllInRange p nodes js :=
  List.forall_mem_append

@[simp] theorem allInRange_map {f : α → Index} :
    AllInRange p nodes (xs.map f) ↔ ∀ x ∈ xs, (f x).InRange p nodes :=
  List.forall_mem_map

@[simp] theorem allInRange_flatMap {f : α → List Index} :
    AllInRange p nodes (xs.flatMap f) ↔ ∀ x ∈ xs, AllInRange p nodes (f x) := by
  simp only [AllInRange, List.mem_flatMap]
  exact ⟨fun h x hx i hi => h i ⟨x, hx, hi⟩, fun h i ⟨x, hx, hi⟩ => h x hx i hi⟩

end AllInRange

end Index

/-! ## Programs -/

/-- The variables that an environment of that type, or an array of such, captures. -/
def Ty.captures : Ty → List ValueId
  | array elem => elem.captures
  | lexicalEnv _ captured => captured
  | _ => []

/-- The values that a value refers to, in its type or otherwise. -/
def Value.values : Value → List ValueId
  | localVar _ ty _ | constant ty _ | param _ ty | thisRef ty => ty.captures
  | newArray elem => elem.captures
  | newObject _ | functionRef _ | globalThis | staticRef _ => []
  | fieldRef base _ => [base]
  | elementRef base index => [base, index]
  | captured env _ => [env]
  | cast op ty => op :: ty.captures
  | compute operands => operands
  | invoke call => call.base.toList ++ call.args

def StmtKind.values : StmtKind → List ValueId
  | assign left right => [left, right]
  | invoke expr => [expr]
  | ret value => value.toList
  | nop => []

def Body.indices (b : Body) : List Index :=
  b.locals.map .value ++ b.stmts.map .stmt

def Program.indices (p : Program) : List Index :=
  (p.values.toList.flatMap Value.values).map .value ++
  (p.stmts.toList.flatMap fun st => st.kind.values).map .value ++
  p.methods.toList.flatMap (fun m => (m.body.map Body.indices).getD []) ++
  p.files.toList.flatMap fun f => f.exports.map fun e => .value e.value

/-! ## Graphs -/

def Entity.indices : Entity → List Index
  | value v => [.value v]
  | objField obj _ => [.node obj]
  | boundFunction stmt target => [.stmt stmt, .node target]
  | sdkReturn stmt => [.stmt stmt]
  | staticField _ | globalThis | exported .. | modelSlot .. => []

def FunctionObject.indices (fn : FunctionObject) : List Index :=
  fn.bindStmt.toList.map .stmt ++ fn.boundThis.toList.map .node ++
    fn.boundArgs.map fun arg => .node arg.1

def NodeKind.indices : NodeKind → List Index
  | reference base _ cloneOf => base.toList.map .node ++ cloneOf.toList.map .node
  | function fn => fn.indices
  | _ => []

def Node.indices (x : Node) : List Index :=
  x.entity.indices ++ x.kind.indices ++ x.pts.toList.map .node ++
    x.sites.map fun site => .stmt site.stmt

def FlowEdge.indices (e : FlowEdge) : List Index :=
  [.node e.src, .node e.dst]

def Pag.indices (g : Pag) : List Index :=
  g.nodes.toList.flatMap Node.indices ++ g.edges.toList.flatMap FlowEdge.indices ++
    g.baseRefs.flatMap fun r => [.value r.1, .value r.2]

/-! ## Builders -/

def CallSite.indices (site : CallSite) : List Index :=
  .stmt site.stmt :: site.args.map .value

def DynCallSite.indices (site : DynCallSite) : List Index :=
  .stmt site.stmt :: site.args.map .value

/-- The statements that label the edge. -/
def CallEdge.indices (e : CallEdge) : List Index :=
  (e.direct ++ e.special ++ e.indirect).map .stmt

def CallGraph.indices (g : CallGraph) : List Index :=
  g.edges.toList.flatMap CallEdge.indices ++ g.sites.toList.flatMap CallSite.indices ++
    g.dynSites.toList.flatMap DynCallSite.indices

def ContextItem.indices : ContextItem → List Index
  | object obj => [.node obj]
  | callSite .. | function _ => []

def SummaryEdge.indices (e : SummaryEdge) : List Index :=
  .stmt e.stmt :: (e.src.indices ++ e.dst.indices)

def FreeLocal.indices (f : FreeLocal) : List Index :=
  [.value f.name, .value f.decl]

def Summary.indices (s : Summary) : List Index :=
  s.edges.flatMap SummaryEdge.indices ++ s.staticCalls.flatMap CallSite.indices ++
    s.dynamicCalls.flatMap DynCallSite.indices ++ s.unknownCalls.flatMap DynCallSite.indices ++
    s.returns.map .value ++ s.free.flatMap FreeLocal.indices

def Builder.indices (b : Builder) : List Index :=
  b.pag.indices ++ b.graph.indices ++ b.contexts.items.toList.flatMap ContextItem.indices ++
    b.summaries.flatMap (fun s => s.2.indices) ++
    b.links.flatMap (fun l => [.value l.1, .node l.2.2]) ++
    b.newEdges.toList.flatMap FlowEdge.indices ++
    b.newSites.toList.flatMap fun s => [.node s.1, .stmt s.2.stmt]

/-! ## Analyses -/

def DiffStore.indices (s : DiffStore) : List Index :=
  (s.fresh.toList ++ s.propagated.toList).flatMap fun entry =>
    .node entry.1 :: entry.2.toList.map .node

def Analysis.indices (a : Analysis) : List Index :=
  a.builder.indices ++ a.facts.indices ++ a.queue.map .node ++
    a.arrivals.toList.flatMap fun x => .node x.1 :: x.2.map .node

end PointsTo
