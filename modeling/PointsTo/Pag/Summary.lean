import PointsTo.Pag.Basic

/-!
# Method summaries

What the body of a method contributes to the graph, whatever the context: the pointer moves between
entities, the calls, the values returned, and the locals that are declared elsewhere. The summary is
made once and laid out again in each context that the method is analysed in.
-/

namespace PointsTo

/-- A pointer move that one statement makes. -/
structure SummaryEdge where
  kind : EdgeKind
  src : Entity
  dst : Entity
  stmt : StmtId
deriving DecidableEq

/-- A local that stands for one declared at the top level of a file. -/
structure FreeLocal where
  name : ValueId
  /-- The local it stands for. -/
  decl : ValueId
  /-- The export that it is reached through, if it is imported. -/
  exported : Option (FileSig × String)
deriving DecidableEq

structure Summary where
  func : FuncId
  edges : List SummaryEdge := []
  /-- Calls whose callee is known. -/
  staticCalls : List CallSite := []
  /-- Calls that are resolved by receiver. -/
  dynamicCalls : List DynCallSite := []
  /-- Calls by receiver whose declaration is unknown. -/
  unknownCalls : List DynCallSite := []
  returns : List ValueId := []
  free : List FreeLocal := []

namespace Summary

def addEdge (s : Summary) (kind : EdgeKind) (src dst : Entity) (stmt : StmtId) : Summary :=
  { s with edges := s.edges ++ [{ kind, src, dst, stmt }] }

def addStaticCall (s : Summary) (call : CallSite) : Summary :=
  { s with staticCalls := s.staticCalls ++ [call] }

def addDynamicCall (s : Summary) (call : DynCallSite) : Summary :=
  { s with dynamicCalls := s.dynamicCalls ++ [call] }

def addUnknownCall (s : Summary) (call : DynCallSite) : Summary :=
  { s with unknownCalls := s.unknownCalls ++ [call] }

/-- Each value is listed once. -/
def addReturn (s : Summary) (v : ValueId) : Summary :=
  if s.returns.contains v then s else { s with returns := s.returns ++ [v] }

/-- Each local is listed once, with what was found for it first. -/
def addFree (s : Summary) (f : FreeLocal) : Summary :=
  if s.free.any (fun g => g.name == f.name) then s else { s with free := s.free ++ [f] }

def edgeCount (s : Summary) (kind : EdgeKind) : Nat :=
  s.edges.countP fun e => e.kind == kind

end Summary

end PointsTo
