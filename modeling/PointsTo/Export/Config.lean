import PointsTo.Config.Basic
import PointsTo.Export.Doc

/-!
# Configurations as documents
-/

namespace PointsTo

instance : ToDoc ReportOptions where
  doc r := .record [("dir", doc r.dir), ("dot_graphs", doc r.dotGraphs),
    ("unhandled_funcs", doc r.unhandledFuncs)]

/-- What a configuration sets, its preset aside. -/
def Config.settings (c : Config) : List (String × Doc) :=
  [("context_type", doc c.sensitivity.name), ("k_limit", doc c.kLimit),
    ("analysis_scale", doc c.scale.name), ("pts_backing", doc c.backing.name),
    ("dump", doc c.report)]

end PointsTo
