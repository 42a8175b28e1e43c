import PointsTo.Builder.Instantiate
import PointsTo.CallGraph.Resolver
import PointsTo.Config.Basic
import PointsTo.Sets.DiffStore

/-!
# The state of an analysis

Beside the builder there are the facts found so far, the queue of nodes with facts still to be
passed on, the objects that reached waiting calls, and the statistics.
-/

namespace PointsTo

structure Stats where
  addressEdges : Nat := 0
  copyEdges : Nat := 0
  loadEdges : Nat := 0
  writeEdges : Nat := 0
  thisEdges : Nat := 0
  interproceduralEdges : Nat := 0
  nodes : Nat := 0
  contexts : Nat := 0
  reachedMethods : Nat := 0
  callGraphEdges : Nat := 0
  iterations : Nat := 0
  /-- How often facts were passed along an edge. -/
  propagations : Nat := 0
  /-- How many pairs of methods were found to call each other through an object. -/
  dynCallsResolved : Nat := 0
  unhandledFuncs : Nat := 0
  /-- The time taken, as measured by whoever runs the analysis. -/
  durationMs : Nat := 0

structure Analysis where
  builder : Builder
  facts : DiffStore
  /-- Nodes that may have facts to pass on. -/
  queue : List NodeId := []
  /-- Nodes with waiting calls, and the objects that reached them. -/
  arrivals : Array (NodeId × List NodeId) := #[]
  stats : Stats := {}

/-- Steps of an analysis, which may fail. -/
abbrev TryAnalysis := ExceptT Failure (StateM Analysis)

namespace Analysis

/-- An analysis over a call graph that has the static calls of the program. -/
def ofGraph (g : CallGraph) (c : Config) : Analysis where
  builder := .ofGraph g c.backing c.sensitivity c.kLimit
  facts := { backing := c.backing }

/-- An analysis over the direct calls of the program. -/
def ofProgram (p : Program) (c : Config) : Analysis :=
  ofGraph (CallGraph.addProgram {} p) c

def pag (a : Analysis) : Pag :=
  a.builder.pag

def setPag (a : Analysis) (pag : Pag) : Analysis :=
  { a with builder := { a.builder with pag } }

/-- Makes methods the entries of the program. -/
def setEntries (p : Program) (a : Analysis) (entries : List MethodSig) : List FuncId × Analysis :=
  let (ids, graph) := a.builder.graph.setEntries p entries
  (ids, { a with builder := { a.builder with graph } })

/-- Does a step of the builder. -/
def build {α : Type} (step : TryBuild α) : TryAnalysis α := fun a =>
  let (result, builder) := step a.builder
  (result, { a with builder })

/-- Queues a node. -/
def enqueue (a : Analysis) (n : NodeId) : Analysis :=
  { a with queue := a.queue ++ [n] }

/-- Takes over facts, and queues the node that got them if it got any. -/
def receive (a : Analysis) (n : NodeId) (r : Bool × DiffStore) : Analysis :=
  let a := { a with facts := r.2 }
  if r.1 then a.enqueue n else a

/-- Counts one more propagation. -/
def countPropagation (a : Analysis) : Analysis :=
  { a with stats := { a.stats with propagations := a.stats.propagations + 1 } }

/-- Counts the things that an analysis ends up with. -/
def collectStats (a : Analysis) : Analysis :=
  let g := a.pag
  { a with stats := { a.stats with
      addressEdges := g.edgeCount .address
      copyEdges := g.edgeCount .copy
      loadEdges := g.edgeCount .load
      writeEdges := g.edgeCount .write
      thisEdges := g.edgeCount .this
      interproceduralEdges := g.edgeCount .interprocedural
      nodes := g.nodes.size
      contexts := a.builder.contexts.contexts.size
      reachedMethods := a.builder.reached.length
      callGraphEdges := a.builder.graph.edges.size
      unhandledFuncs := a.builder.unhandled.length } }

end Analysis

/-! ## Where to start from -/

/-- How the calls that depend on a receiver are treated before the analysis. -/
inductive Seed where
  /-- They are left to the analysis. -/
  | direct
  /-- They are resolved by class hierarchy. -/
  | classHierarchy
  /-- They are resolved by the classes allocated. -/
  | rapidTypes
deriving DecidableEq, Repr

def Seed.name : Seed → String
  | direct => "Direct"
  | classHierarchy => "ClassHierarchy"
  | rapidTypes => "RapidType"

/-- The call graph to start from. -/
def Seed.graph (seed : Seed) (p : Program) (entries : List MethodSig) : CallGraph :=
  match seed with
  | direct => ((CallGraph.addProgram {} p).setEntries p entries).2
  | classHierarchy => (CallGraph.addResolved {} p .hierarchy entries).2
  | rapidTypes => (CallGraph.addResolved {} p .rapidTypes entries).2

end PointsTo
