import PointsTo.CallGraph.Basic
import PointsTo.Program.Scope

/-!
# The direct call graph

What can be read off the calls without knowing any object: every method has a node, every call by
name an edge and a static site, and every other call a dynamic site with the method it names.
-/

namespace PointsTo.CallGraph

/-- The kind of a declared method. -/
def kindOf (m : MethodDecl) : FuncKind :=
  if m.isGenerated then .intrinsic
  else if !m.hasBody then .blank
  else if m.sig.isConstructor then .constructor
  else .real

/-- The node of a method. A method that is not declared belongs to the library and gets the kind
`missing`. -/
def nodeFor (g : CallGraph) (p : Program) (m : MethodSig) (missing : FuncKind) :
    FuncId × CallGraph :=
  match p.method? m with
  | some decl => g.addNode m (kindOf decl) (p.isSdkMethod m)
  | none => g.addNode m missing true

/-- How a call by name, or any other call, is recorded on its edge. -/
def callKind (i : Invoke) : CallKind :=
  match i.kind with
  | .named => if i.method.isConstructor then .special else .direct
  | .member | .pointer => .indirect

/-- Records the call that a statement makes. -/
def addStmt (p : Program) (caller : FuncId) (g : CallGraph) (stmt : StmtId) : CallGraph :=
  match p.invokeOf? stmt with
  | none => g
  | some i =>
    match i.kind with
    | .named =>
      let (callee, g) := g.nodeFor p i.method .blank
      let (_, g) := g.addCall caller callee stmt (callKind i)
      (g.addSite stmt i.args caller callee).2
    | .member | .pointer =>
      let (potential, g) := g.nodeFor p i.method .virtual
      (g.addDynSite stmt i.args caller (some potential)).2

/-- Records the calls in the body of a method. -/
def addBody (p : Program) (g : CallGraph) (m : MethodSig) : CallGraph :=
  match p.method? m with
  | none => g
  | some decl =>
    let (caller, g) := g.nodeFor p m .blank
    decl.stmts.foldl (addStmt p caller) g

/-- Nodes for all of `ms`, then the calls in their bodies. -/
def addDirect (g : CallGraph) (p : Program) (ms : List MethodSig) : CallGraph :=
  let g := ms.foldl (fun g m => (g.nodeFor p m .blank).2) g
  ms.foldl (addBody p) g

/-- The direct calls of the whole program. -/
def addProgram (g : CallGraph) (p : Program) : CallGraph :=
  g.addDirect p (p.methods.toList.map MethodDecl.sig)

/-- The nodes of several methods, in order. -/
def nodesFor (g : CallGraph) (p : Program) (missing : FuncKind) :
    List MethodSig → List FuncId × CallGraph
  | [] => ([], g)
  | m :: ms =>
    let (f, g) := g.nodeFor p m missing
    let (fs, g) := g.nodesFor p missing ms
    (f :: fs, g)

/-- Makes methods the entries of the program. -/
def setEntries (g : CallGraph) (p : Program) (ms : List MethodSig) : List FuncId × CallGraph :=
  let (ids, g) := g.nodesFor p .blank ms
  (ids, { g with entries := ids })

end PointsTo.CallGraph
