import PointsTo.Text.Quoted

/-!
# Graph drawings

The text of a directed graph in the dot language. Nodes are numbered from zero in the order given.
A label is quoted text, quoted once more: every quote and backslash of it is escaped again.
-/

namespace PointsTo.Text

/-- Every quote and backslash with a backslash in front. -/
def escapeQuotes (s : String) : String :=
  String.join (s.toList.map fun c =>
    if c == '"' || c == '\\' then "\\" ++ c.toString else c.toString)

/-- The attribute that shows a text. -/
def dotLabel (s : String) : String :=
  "label = \"" ++ escapeQuotes (quoted s) ++ "\" "

structure DotEdge where
  src : Nat
  dst : Nat
  label : Option String := none

def digraph (nodes : List String) (edges : List DotEdge) : String :=
  let node (n : String × Nat) : String :=
    "    " ++ toString n.2 ++ " [ " ++ dotLabel n.1 ++ "]\n"
  let edge (e : DotEdge) : String :=
    "    " ++ toString e.src ++ " -> " ++ toString e.dst ++ " [ " ++
      (e.label.map dotLabel).getD "" ++ "]\n"
  "digraph \x7b\n" ++ String.join (nodes.zipIdx.map node) ++ String.join (edges.map edge) ++
    "\x7d\n"

end PointsTo.Text
