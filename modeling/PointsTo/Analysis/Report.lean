import PointsTo.Analysis.Query
import PointsTo.Analysis.Solve
import PointsTo.Export.Doc
import PointsTo.Pag.Drawing

/-!
# Reports

A finished analysis can be written to a directory: drawings of both graphs, the methods that
nothing is known of, and the statistics. Files are written to a *disk*, which is what the analysis
sees of the outside: texts by path. A directory can be made if its path can name one and no file is
in its way.
-/

namespace PointsTo

/-! ## Disks -/

/-- Files with their texts. -/
structure Disk where
  files : List (String × String) := []

namespace Disk

def read? (d : Disk) (path : String) : Option String :=
  d.files.lookup path

def write (d : Disk) (path text : String) : Disk :=
  { d with files := (path, text) :: d.files.filter fun f => f.1 != path }

/-- The directories on the way to a path, and the path itself. -/
def wayTo (path : String) : List String :=
  let parts := path.splitOn "/"
  (List.range parts.length).map fun n => "/".intercalate (parts.take (n + 1))

/-- Whether a path can name anything: it holds no zero character, and neither it nor a part of it is
too long. -/
def isPath (path : String) : Bool :=
  !path.contains '\x00' && path.utf8ByteSize < 4096 &&
    (path.splitOn "/").all fun part => part.utf8ByteSize < 256

/-- Whether a directory of that path can be made. -/
def canMakeDir (d : Disk) (path : String) : Bool :=
  isPath path && (wayTo path).all fun q => (d.read? q).isNone

end Disk

/-! ## Statistics as text -/

namespace Stats

/-- What was counted, by name, in the order in which it is shown. -/
def counts (s : Stats) : List (String × Nat) :=
  [("address_edges", s.addressEdges), ("copy_edges", s.copyEdges), ("load_edges", s.loadEdges),
    ("write_edges", s.writeEdges), ("this_edges", s.thisEdges),
    ("inter_procedural_edges", s.interproceduralEdges), ("nodes", s.nodes),
    ("contexts", s.contexts), ("reached_methods", s.reachedMethods),
    ("call_graph_edges", s.callGraphEdges), ("iterations", s.iterations),
    ("propagations", s.propagations), ("dyn_calls_resolved", s.dynCallsResolved),
    ("unhandled_funcs", s.unhandledFuncs)]

/-- The counts and the time taken. -/
def fields (s : Stats) : List (String × Nat) :=
  s.counts ++ [("duration_ms", s.durationMs)]

def listing (s : Stats) : String :=
  Text.record "PtaStats" (s.fields.map fun f => (f.1, toString f.2))

end Stats

instance : ToDoc Stats where
  doc s := .record (s.fields.map fun f => (f.1, doc f.2))

/-- A summary of the builder in one line. -/
def Builder.listing (b : Builder) (models : List LibraryModel) : String :=
  Text.record "PagBuilder" [
    ("nodes", toString b.pag.nodes.size), ("edges", toString b.pag.edges.size),
    ("func_pags", toString b.summaries.length), ("instantiations", toString b.built.length),
    ("plugins", Text.list (models.map fun m => Text.quoted m.name))]

namespace Analysis

/-- A summary of the analysis in one line. -/
def listing (a : Analysis) (c : Config) (models : List LibraryModel) : String :=
  Text.record "PointerAnalysis" [
    ("config", Text.quoted c.describe), ("builder", a.builder.listing models),
    ("stats", a.stats.listing)]

/-! ## Writing -/

/-- The files of a report, by name. -/
def reportFiles (a : Analysis) (r : ReportOptions) : List (String × String) :=
  (if r.dotGraphs then [("pag.dot", a.pag.toDot), ("cg.dot", a.builder.graph.toDot)] else []) ++
  (if r.unhandledFuncs then
    [("unhandled_funcs.json", (doc (a.builder.unhandledMethods.map MethodSig.render)).write)]
  else []) ++
  [("pta_stats.json", (doc a.stats).write)]

/-- Writes a report, if a directory is given. -/
def writeReport (a : Analysis) (r : ReportOptions) (d : Disk) : Except Failure Disk :=
  match r.dir with
  | none => .ok d
  | some dir =>
    if d.canMakeDir dir then
      .ok ((a.reportFiles r).foldl (fun d f => d.write (dir ++ "/" ++ f.1) f.2) d)
    else .error .unwritable

/-- Runs an analysis to its fixpoint and writes the report that the configuration asks for. -/
def start (s : Setting) (c : Config) (a : Analysis) (d : Disk) :
    Except Failure Unit × Analysis × Disk :=
  match (solve s c.scale).run a with
  | (.error e, a) => (.error e, a, d)
  | (.ok _, a) =>
    if c.report.isEnabled then
      match a.writeReport c.report d with
      | .ok d => (.ok (), a, d)
      | .error e => (.error e, a, d)
    else (.ok (), a, d)

end Analysis

end PointsTo
