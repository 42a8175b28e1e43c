import PointsTo.Program.Scope

/-!
# Assembling programs

Programs are put together by declaration: files, classes and methods first, then bodies, statement
by statement. Declaring something again changes nothing. A body that is opened again goes on where
it ended; a body of an undeclared method leaves its values and statements in the tables but belongs
to no method.

A statement that makes a new value answers the value; the others answer their own id.
-/

namespace PointsTo.Program

/-! ## Declarations -/

def addClass (p : Program) (file : FileSig) (name : String) (superclass : Option ClassSig) :
    ClassSig × Program :=
  let sig : ClassSig := ⟨file, name⟩
  if (p.class? sig).isSome then (sig, p)
  else (sig, { p with
    classes := p.classes.push { sig, superclass }
    files := p.files.map fun f =>
      if f.sig = file then { f with classes := f.classes ++ [sig] } else f })

def addMethodDecl (p : Program) (decl : MethodDecl) : MethodSig × Program :=
  if (p.method? decl.sig).isSome then (decl.sig, p)
  else (decl.sig, { p with
    methods := p.methods.push decl
    classes := p.classes.map fun c =>
      if c.sig = decl.sig.owner then { c with methods := c.methods ++ [decl.sig] } else c })

/-- A method that is called on a receiver. -/
def addMethod (p : Program) (owner : ClassSig) (name : String) : MethodSig × Program :=
  p.addMethodDecl { sig := ⟨owner, name⟩, isStatic := false }

def addStaticMethod (p : Program) (owner : ClassSig) (name : String) : MethodSig × Program :=
  p.addMethodDecl { sig := ⟨owner, name⟩, isStatic := true }

/-- A file comes with its default class and its default method. -/
def addFile (p : Program) (sig : FileSig) (isSdk : Bool) : FileSig × Program :=
  if (p.file? sig).isSome then (sig, p)
  else
    let p := { p with files := p.files.push { sig, isSdk } }
    let (cls, p) := p.addClass sig Naming.defaultClass none
    (sig, (p.addStaticMethod cls Naming.defaultMethod).2)

/-- A top-level function. -/
def addFunction (p : Program) (file : FileSig) (name : String) : MethodSig × Program :=
  p.addStaticMethod file.defaultClass name

/-- A function written inside another. -/
def addNested (p : Program) (outer : MethodSig) (name : String) : MethodSig × Program :=
  p.addMethodDecl { sig := ⟨outer.owner, name⟩, isStatic := true, outer := some outer }

/-- The `index`-th arrow function written inside a method. -/
def addArrow (p : Program) (outer : MethodSig) (index : Nat) : MethodSig × Program :=
  let name := Naming.arrowStart ++ toString index ++ "$" ++ outer.name
  p.addMethodDecl { sig := ⟨outer.owner, name⟩, isStatic := false, outer := some outer }

def setGenerated (p : Program) (sig : MethodSig) : Program :=
  { p with methods := p.methods.map fun m =>
      if m.sig = sig then { m with isGenerated := true } else m }

def addImport (p : Program) (file : FileSig) (i : Import) : Program :=
  { p with files := p.files.map fun f =>
      if f.sig = file then { f with imports := f.imports ++ [i] } else f }

def addExport (p : Program) (file : FileSig) (e : Export) : Program :=
  { p with files := p.files.map fun f =>
      if f.sig = file then { f with exports := f.exports ++ [e] } else f }

/-! ## Bodies -/

/-- A method body that is being written. -/
structure Draft where
  program : Program
  method : MethodSig
  body : Body

/-- Opens the body of a method at its end. -/
def openBody (p : Program) (method : MethodSig) : Draft :=
  { program := p, method, body := ((p.method? method).bind MethodDecl.body).getD {} }

namespace Draft

/-- Gives the body to its method, if that is declared. -/
def close (d : Draft) : Program :=
  { d.program with methods := d.program.methods.map fun m =>
      if m.sig = d.method then { m with body := some d.body } else m }

def newValue (d : Draft) (v : Value) : ValueId × Draft :=
  (d.program.values.size,
    { d with program := { d.program with values := d.program.values.push v } })

def newStmt (d : Draft) (kind : StmtKind) : StmtId × Draft :=
  let id := d.program.stmts.size
  (id, { d with
    program := { d.program with stmts := d.program.stmts.push { method := d.method, kind } }
    body := { d.body with stmts := d.body.stmts ++ [id] } })

/-- The local of that name, declared on first use. -/
def localVar (d : Draft) (name : String) (ty : Ty) : ValueId × Draft :=
  match d.program.firstNamed? d.body.locals name with
  | some v => (v, d)
  | none =>
    let (v, d) := d.newValue (.localVar name ty d.method)
    (v, { d with body := { d.body with locals := d.body.locals ++ [v] } })

def constant (d : Draft) (text : String) (ty : Ty) : ValueId × Draft :=
  d.newValue (.constant ty text)

/-- The local that holds what `nested` captures. -/
def closureEnv (d : Draft) (name : String) (nested : MethodSig) (captured : List ValueId) :
    ValueId × Draft :=
  d.localVar name (.lexicalEnv nested captured)

/-- `left = right` -/
def assign (d : Draft) (left right : ValueId) : StmtId × Draft :=
  d.newStmt (.assign left right)

/-- `dst = v` for a new value, which is answered. -/
def assignNew (d : Draft) (dst : ValueId) (v : Value) : ValueId × Draft :=
  let (id, d) := d.newValue v
  (id, (d.assign dst id).2)

/-- `v = src` for a new value, which is answered. -/
def storeNew (d : Draft) (v : Value) (src : ValueId) : ValueId × Draft :=
  let (id, d) := d.newValue v
  (id, (d.assign id src).2)

/-- `name = parameter index`; answers the local. -/
def param (d : Draft) (index : Nat) (name : String) (ty : Ty) : ValueId × Draft :=
  let (x, d) := d.localVar name ty
  (x, (d.assignNew x (.param index ty)).2)

/-- `this = receiver`; answers the local. -/
def thisLocal (d : Draft) : ValueId × Draft :=
  let ty := Ty.object d.method.owner
  let (x, d) := d.localVar Naming.this ty
  (x, (d.assignNew x (.thisRef ty)).2)

/-- The field of `base` with that name, of the class that the type of `base` names. -/
def fieldOf (d : Draft) (base : ValueId) (name : String) : Value :=
  .fieldRef base ⟨(d.program.tyOf base).classSig?, name, false⟩

/-- `dst = base.name` -/
def loadField (d : Draft) (dst base : ValueId) (name : String) : ValueId × Draft :=
  d.assignNew dst (d.fieldOf base name)

/-- `base.name = src` -/
def storeField (d : Draft) (base : ValueId) (name : String) (src : ValueId) : ValueId × Draft :=
  d.storeNew (d.fieldOf base name) src

/-- `dst = cls.name` -/
def loadStatic (d : Draft) (dst : ValueId) (cls : ClassSig) (name : String) : ValueId × Draft :=
  d.assignNew dst (.staticRef ⟨some cls, name, true⟩)

/-- `cls.name = src` -/
def storeStatic (d : Draft) (cls : ClassSig) (name : String) (src : ValueId) : ValueId × Draft :=
  d.storeNew (.staticRef ⟨some cls, name, true⟩) src

/-- `dst = src as ty`; the new value can only be named by its id. -/
def cast (d : Draft) (dst src : ValueId) (ty : Ty) : StmtId × Draft :=
  let (v, d) := d.newValue (.cast src ty)
  d.assign dst v

/-- `dst = operator(operands)` -/
def compute (d : Draft) (dst : ValueId) (operands : List ValueId) : StmtId × Draft :=
  let (v, d) := d.newValue (.compute operands)
  d.assign dst v

/-- `dst = call`, or `call` alone. -/
def call (d : Draft) (dst : Option ValueId) (invoke : Invoke) : StmtId × Draft :=
  let (v, d) := d.newValue (.invoke invoke)
  match dst with
  | some x => d.assign x v
  | none => d.newStmt (.invoke v)

def ret (d : Draft) (value : Option ValueId) : StmtId × Draft :=
  d.newStmt (.ret value)

def nop (d : Draft) : StmtId × Draft :=
  d.newStmt .nop

end Draft

end PointsTo.Program
