import PointsTo.CallGraph.Basic
import PointsTo.Export.Program

/-!
# Call graphs as documents

Nodes are listed by id, edges by source and target. Methods are shown by their full name.
-/

namespace PointsTo

instance : ToDoc CallSite where
  doc s := .record [("id", doc s.id), ("call_stmt", doc s.stmt), ("args", doc s.args),
    ("caller", doc s.caller), ("callee", doc s.callee)]

instance : ToDoc DynCallSite where
  doc s := .record [("id", doc s.id), ("call_stmt", doc s.stmt), ("args", doc s.args),
    ("caller", doc s.caller), ("potential_callee", doc s.potential)]

instance : ToDoc CallEdge where
  doc e := doc (e.src, e.dst, e.direct, e.special, e.indirect, e.callCount)

instance : ToDoc CallGraph where
  doc g :=
    let node (n : FuncNode × FuncId) : Doc :=
      doc (n.2, n.1.method.render, n.1.kind.name, n.1.isSdk)
    .record [("nodes", doc (g.nodes.toList.zipIdx.map node)), ("edges", doc g.sortedEdges),
      ("counts", doc [g.nodes.size, g.edges.size, g.siteCount]), ("entries", doc g.entries)]

end PointsTo
