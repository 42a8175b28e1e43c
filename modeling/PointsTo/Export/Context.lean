import PointsTo.Context
import PointsTo.Export.Doc

/-!
# Context items as documents
-/

namespace PointsTo

instance : ToDoc ContextItem where
  doc
    | .callSite site callee =>
      .record [("CallSite", .record [("call_site", doc site), ("callee", doc callee)])]
    | .object obj => .record [("Object", .record [("obj", doc obj)])]
    | .function func => .record [("Func", .record [("func", doc func)])]

end PointsTo
