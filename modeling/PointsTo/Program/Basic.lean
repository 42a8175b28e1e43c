import PointsTo.Program.Value

/-!
# Programs

A program is a list of declared files, classes and methods with two tables that bodies point into:
the values and the statements, each named by position. Statements have no order beyond that of
their body, since the analysis ignores control flow.
-/

namespace PointsTo

inductive StmtKind where
  | assign (left right : ValueId)
  | invoke (expr : ValueId)
  | ret (value : Option ValueId)
  /-- Control flow and whatever else moves no objects. -/
  | nop
deriving DecidableEq, Repr

structure Stmt where
  method : MethodSig
  kind : StmtKind
deriving DecidableEq, Repr

namespace Stmt

/-- The value that may be a call. -/
def invokeValue? (s : Stmt) : Option ValueId :=
  match s.kind with
  | .assign _ right => some right
  | .invoke expr => some expr
  | _ => none

/-- The value that the statement writes. -/
def defValue? (s : Stmt) : Option ValueId :=
  match s.kind with
  | .assign left _ => some left
  | _ => none

end Stmt

structure Body where
  locals : List ValueId := []
  stmts : List StmtId := []
deriving Repr

structure MethodDecl where
  sig : MethodSig
  isStatic : Bool
  /-- Not written by the user. -/
  isGenerated : Bool := false
  /-- The method that this one is written in. -/
  outer : Option MethodSig := none
  body : Option Body := none
deriving Repr

namespace MethodDecl

def hasBody (m : MethodDecl) : Bool :=
  m.body.isSome

def stmts (m : MethodDecl) : List StmtId :=
  (m.body.map Body.stmts).getD []

def locals (m : MethodDecl) : List ValueId :=
  (m.body.map Body.locals).getD []

end MethodDecl

structure ClassDecl where
  sig : ClassSig
  superclass : Option ClassSig
  methods : List MethodSig := []
deriving Repr

/-- The first method of the class with that name. -/
def ClassDecl.methodNamed? (c : ClassDecl) (name : String) : Option MethodSig :=
  c.methods.find? fun m => m.name == name

/-- A name of another file made visible in this one. -/
structure Import where
  localName : String
  source : FileSig
  importedName : String
deriving Repr

/-- A top-level local made visible to other files. -/
structure Export where
  name : String
  value : ValueId
deriving Repr

structure FileDecl where
  sig : FileSig
  /-- Whether the file only declares a library. -/
  isSdk : Bool
  classes : List ClassSig := []
  imports : List Import := []
  exports : List Export := []
deriving Repr

structure Program where
  files : Array FileDecl := #[]
  classes : Array ClassDecl := #[]
  methods : Array MethodDecl := #[]
  values : Array Value := #[]
  stmts : Array Stmt := #[]

namespace Program

def value? (p : Program) (v : ValueId) : Option Value :=
  p.values[v]?

def stmt? (p : Program) (s : StmtId) : Option Stmt :=
  p.stmts[s]?

def file? (p : Program) (sig : FileSig) : Option FileDecl :=
  p.files.find? fun f => f.sig == sig

def class? (p : Program) (sig : ClassSig) : Option ClassDecl :=
  p.classes.find? fun c => c.sig == sig

def method? (p : Program) (sig : MethodSig) : Option MethodDecl :=
  p.methods.find? fun m => m.sig == sig

/-- Whether the value is a local. -/
def isLocal (p : Program) (v : ValueId) : Bool :=
  (p.value? v).any Value.isLocal

/-- The type of a value. -/
def tyOf (p : Program) (v : ValueId) : Ty :=
  ((p.value? v).map Value.ty).getD .unknown

def localName? (p : Program) (v : ValueId) : Option String :=
  (p.value? v).bind Value.localName?

/-- The call that a statement makes. -/
def invokeOf? (p : Program) (s : StmtId) : Option Invoke := do
  let stmt ← p.stmt? s
  let v ← stmt.invokeValue?
  let value ← p.value? v
  value.invoke?

/-- Whether the program declares the method and has its body. -/
def hasBody (p : Program) (m : MethodSig) : Bool :=
  (p.method? m).any MethodDecl.hasBody

end Program

end PointsTo
