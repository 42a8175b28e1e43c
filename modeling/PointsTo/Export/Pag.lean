import PointsTo.Export.CallGraph
import PointsTo.Pag.Drawing
import PointsTo.Pag.Summary

/-!
# Pointer assignment graphs as documents

A node is shown with everything that hangs on it; what is empty is left out. Fields come by name,
the elements last.
-/

namespace PointsTo

instance : ToDoc FieldKey where
  doc
    | .named name => doc name
    | .element => .null

/-- Names first, in order, then the elements. -/
def FieldKey.le : FieldKey → FieldKey → Bool
  | named a, named b => !decide (b < a)
  | named _, element => true
  | element, named _ => false
  | element, element => true

instance : ToDoc SiteRole where
  doc
    | .receiver => doc "Receiver"
    | .unknown => doc "Unknown"
    | .arg index => doc index

instance : ToDoc SiteRef :=
  ⟨fun s => doc (s.stmt, s.role)⟩

instance : ToDoc NodeKind where
  doc
    | .reference base key cloneOf => .form "RefVar" (base, key, cloneOf)
    | .param index => .form "Param" index
    | .heapObj cls container => .form "HeapObj"
        (cls.map ClassSig.render, container.map ContainerKind.name)
    | .function f => .formOf "Function" [("method", doc f.method.render), ("func", doc f.func),
        ("call_site", doc f.bindStmt), ("this_pt", doc f.boundThis),
        ("bound_args", doc f.boundArgs), ("arg_offset", doc f.argOffset)]
    | kind => doc kind.name

namespace Pag

/-- The edges at a node by kind. -/
def edgesDoc (side : EdgeKind → List NodeId) : Doc :=
  .record (Doc.nonEmpty (EdgeKind.all.map fun k => (k.name, doc (side k))))

def nodeDoc (g : Pag) (id : NodeId) (n : Node) : Doc :=
  let fields := ((g.fieldKeys id).mergeSort FieldKey.le).map fun key =>
    (key, g.fieldOf? id key)
  .record (Doc.nonEmpty [
    ("n", doc (g.describe id)), ("kind", doc n.kind), ("pts", doc n.pts.toList),
    ("out", edgesDoc fun k => g.outEdges k id), ("in", edgesDoc fun k => g.inEdges k id),
    ("fields", doc fields), ("refs", doc (g.refsOf id)), ("sites", doc n.sites)])

end Pag

instance : ToDoc Pag where
  doc g := .record [
    ("nodes", doc (g.nodes.toList.zipIdx.map fun n => g.nodeDoc n.2 n.1)),
    ("edge_counts", doc (EdgeKind.all.map g.edgeCount)),
    ("totals", doc [g.nodes.size, g.edges.size])]

instance : ToDoc Summary where
  doc s :=
    let edge (e : SummaryEdge) : Doc :=
      doc (e.kind.longName, e.src.render, e.dst.render, e.stmt)
    let free (f : FreeLocal) : Doc :=
      doc (f.name, f.decl, f.exported.map fun e => (e.1.render, e.2))
    .record [("func", doc s.func), ("edges", doc (s.edges.map edge)),
      ("counts", doc (EdgeKind.all.map s.edgeCount)), ("normal", doc s.staticCalls),
      ("dynamic", doc s.dynamicCalls), ("unknown", doc s.unknownCalls),
      ("returns", doc s.returns), ("free", doc (s.free.map free))]

end PointsTo
