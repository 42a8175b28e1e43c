import PointsTo.Analysis.Basic

/-!
# Questions about a finished analysis

Values are asked about, not nodes: an answer joins all contexts. Two values are related if objects
can get from one to the other, or to both from elsewhere, by moves alone.
-/

namespace PointsTo.Analysis

/-- The objects that a value may point to. -/
def pointsTo (a : Analysis) (v : ValueId) : ObjSet :=
  (a.pag.nodesOf v).foldl (fun s n => (s.union (((a.pag.node? n).map Node.pts).getD s.clear)).2)
    (.empty a.pag.backing)

/-- Whether two values may point to one object. -/
def mayAlias (a : Analysis) (v w : ValueId) : Bool :=
  (a.pointsTo v).intersects (a.pointsTo w)

def noAlias (a : Analysis) (v w : ValueId) : Bool :=
  !a.mayAlias v w

/-- The edges along which an object moves unchanged, in both directions. -/
def moves (g : Pag) : List (NodeId × NodeId) :=
  g.edges.toList.flatMap fun e =>
    match e.kind with
    | .copy | .interprocedural | .this => [(e.src, e.dst), (e.dst, e.src)]
    | _ => []

/-- The nodes that moves connect with a value, ascending. -/
def relatedNodes (a : Analysis) (v : ValueId) : List NodeId :=
  Ascending.ofList (Reach.walk (moves a.pag) (a.pag.nodesOf v) [])

/-- The values that moves connect with a value, ascending. -/
def relatedValues (a : Analysis) (v : ValueId) : List ValueId :=
  Ascending.ofList ((a.relatedNodes v).filterMap fun n =>
    match (a.pag.node? n).map Node.entity with
    | some (.value w) => some w
    | _ => none)

end PointsTo.Analysis
