import PointsTo.CallGraph.Basic
import PointsTo.Pag.Entity
import PointsTo.Program.Listing

/-!
# What can go wrong

Calls that cannot be resolved are no failure: they add nothing. A failure ends the operation that
meets it, and what was done before it stays done.
-/

namespace PointsTo

inductive Failure where
  /-- A statement assigns to a value that is no place. -/
  | nonLvalue (stmt : StmtId) (value : Value)
  /-- A method was named by an id that the call graph does not have. -/
  | missingFunc (func : FuncId)
  /-- A node was named by an id that the graph does not have. -/
  | missingNode (node : NodeId)
  /-- The bound on the number of steps was reached. -/
  | outOfFuel
  /-- A report could not be written. -/
  | unwritable
deriving DecidableEq

def Failure.message : Failure → String
  | nonLvalue stmt value =>
    "Invariant violation: statement s" ++ toString stmt ++ " assigns to a non-lvalue " ++
      value.listing
  | missingFunc func => "Missing PAG node: call graph node f" ++ toString func
  | missingNode node => "Missing PAG node: n" ++ toString node
  | outOfFuel => "Out of fuel"
  | unwritable => "IO error"

end PointsTo
