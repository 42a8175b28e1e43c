import PointsTo.Program.Basic
import PointsTo.Reach

/-!
# What the names in a body stand for

Receiver, parameters and results of a method are found in the statements of its body. A local that
its method never writes is *free*: it stands for a local at the top level of the file, or for one
that another file exports.
-/

namespace PointsTo.Program

/-- A method that no file of the program declares, or that a library file does, belongs to the
library. -/
def isSdkMethod (p : Program) (m : MethodSig) : Bool :=
  match p.method? m with
  | none => true
  | some _ => ((p.file? m.owner.file).map FileDecl.isSdk).getD true

/-- The first of `vs` that is a local of that name. -/
def firstNamed? (p : Program) (vs : List ValueId) (name : String) : Option ValueId :=
  vs.find? fun v => p.localName? v == some name

/-- The local of `m` with that name. -/
def localNamed? (p : Program) (m : MethodSig) (name : String) : Option ValueId := do
  let decl ← p.method? m
  p.firstNamed? decl.locals name

/-- Both sides of the assignments in the body of `m`, in order. -/
def assignments (p : Program) (m : MethodSig) : List (ValueId × ValueId) :=
  (((p.method? m).map MethodDecl.stmts).getD []).filterMap fun s =>
    match (p.stmt? s).map Stmt.kind with
    | some (.assign left right) => some (left, right)
    | _ => none

/-- The statements that write a local, anywhere in the program. -/
def definingStmts (p : Program) (v : ValueId) : List StmtId :=
  if p.isLocal v then
    (List.range p.stmts.size).filter fun s => (p.stmt? s).bind Stmt.defValue? == some v
  else []

/-- The assignments in the body of `m` that read the receiver. -/
def receiverReads (p : Program) (m : MethodSig) : List (ValueId × ValueId) :=
  (p.assignments m).filter fun a => (p.value? a.2).any Value.isThisRef

/-- The local that holds the receiver, if exactly one assignment reads the receiver. -/
def thisLocal? (p : Program) (m : MethodSig) : Option ValueId :=
  match p.receiverReads m with
  | [(left, _)] => some left
  | _ => none

/-- The receiver of `m`, if its body reads it. -/
def thisRef? (p : Program) (m : MethodSig) : Option ValueId :=
  (p.receiverReads m).head?.map (·.2)

/-- The parameters that the body of `m` reads, with their positions, by position. -/
def params (p : Program) (m : MethodSig) : List (Nat × ValueId) :=
  let found := (p.assignments m).filterMap fun a =>
    match p.value? a.2 with
    | some (.param index _) => some (index, a.2)
    | _ => none
  found.mergeSort fun a b => a.1 ≤ b.1

/-- The locals that `m` returns. -/
def returnValues (p : Program) (m : MethodSig) : List ValueId :=
  (((p.method? m).map MethodDecl.stmts).getD []).filterMap fun s =>
    match (p.stmt? s).map Stmt.kind with
    | some (.ret (some v)) => if p.isLocal v then some v else none
    | _ => none

/-- The local that a file exports under a name. -/
def exported? (p : Program) (file : FileSig) (name : String) : Option ValueId := do
  let decl ← p.file? file
  let e ← decl.exports.find? fun e => e.name == name
  return e.value

/-- The first import of that name in a file. -/
def import? (p : Program) (file : FileSig) (name : String) : Option Import := do
  let decl ← p.file? file
  decl.imports.find? fun i => i.localName == name

/-- The top-level local that a free local stands for. A local of the file's own top level goes
before an import. -/
def resolveFree? (p : Program) (v : ValueId) : Option ValueId :=
  match p.value? v with
  | some (.localVar name _ m) =>
    if m.isDefault || !(p.definingStmts v).isEmpty then none
    else if name == Naming.this || name == Naming.globalThis then none
    else
      let file := m.owner.file
      match p.file? file, p.localNamed? file.defaultMethod name with
      | none, _ => none
      | some _, some decl => some decl
      | some _, none => do
        let i ← p.import? file name
        p.exported? i.source i.importedName
  | _ => none

/-- The local that a local is a plain copy of: its one definition assigns that local to it. -/
def copiedFrom? (p : Program) (v : ValueId) : Option ValueId :=
  match p.definingStmts v with
  | [s] =>
    match (p.stmt? s).map Stmt.kind with
    | some (.assign _ right) => if p.isLocal right then some right else none
    | _ => none
  | _ => none

/-- Follows plain copies back to where they come from. -/
def dealias (p : Program) (v : ValueId) : ValueId :=
  Reach.settle p.copiedFrom? p.values.size [] v

/-- The local of an enclosing method that the environment `env` captures under a name. -/
def captured? (p : Program) (env : ValueId) (name : String) : Option ValueId :=
  match p.tyOf env with
  | .lexicalEnv _ captured => p.firstNamed? captured name
  | _ => none

/-- Whether a local holds the global object, by its name or by some definition. -/
def holdsGlobalThis (p : Program) (v : ValueId) : Bool :=
  p.localName? v == some Naming.globalThis ||
    (p.definingStmts v).any fun s =>
      match (p.stmt? s).map Stmt.kind with
      | some (.assign _ right) => p.value? right == some .globalThis
      | _ => false

end PointsTo.Program
