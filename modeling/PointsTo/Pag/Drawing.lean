import PointsTo.Pag.Basic
import PointsTo.Text.Dot

/-!
# Drawing a pointer assignment graph

Nodes are shown with number, kind, context and entity, edges with their kind. The drawing ends with
the number of edges of each kind.
-/

namespace PointsTo.Pag

def describe (g : Pag) (n : NodeId) : String :=
  match g.node? n with
  | some node => s!"n{n} " ++ node.kind.name ++ s!" c{node.cid} " ++ node.entity.render
  | none => s!"n{n} <missing>"

/-- By source, then target, then kind. -/
def edgeLe (a b : FlowEdge) : Bool :=
  a.src < b.src ||
    (a.src == b.src && (a.dst < b.dst || (a.dst == b.dst && a.kind.rank ≤ b.kind.rank)))

/-- How many edges there are of each kind. -/
def legend (g : Pag) : String :=
  let counts := EdgeKind.all.map fun k => k.name ++ "=" ++ toString (g.edgeCount k)
  "// edges: " ++ " ".intercalate counts ++ "\n"

def toDot (g : Pag) : String :=
  let edges := (g.edges.toList.mergeSort edgeLe).map fun e =>
    { src := e.src, dst := e.dst, label := some e.kind.name : Text.DotEdge }
  Text.digraph ((List.range g.nodes.size).map g.describe) edges ++ g.legend

end PointsTo.Pag
