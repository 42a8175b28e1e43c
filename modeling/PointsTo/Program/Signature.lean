/-!
# Signatures

Files, classes, methods and fields are named structurally: a signature says where a thing is
declared, and two signatures are equal exactly when all their parts are. A signature need not be
declared anywhere; calls and types may name things outside the program.
-/

namespace PointsTo

/-! ## Names given to what the source leaves unnamed -/

namespace Naming

/-- The class of a file that holds its top-level functions. -/
def defaultClass : String := "%dflt"

/-- The method of a file that holds its top-level statements. -/
def defaultMethod : String := "%dflt"

/-- How the name of every arrow function starts. -/
def arrowStart : String := "%AM"

def constructor : String := "constructor"

def this : String := "this"

def super : String := "super"

def globalThis : String := "globalThis"

end Naming

/-! ## Files -/

structure FileSig where
  project : String
  name : String
deriving DecidableEq, Repr

namespace FileSig

/-- The file of everything that is built in. -/
def builtin : FileSig :=
  ⟨"%builtin", "%builtin.d.ts"⟩

def render (f : FileSig) : String :=
  "@" ++ f.project ++ "/" ++ f.name

end FileSig

/-! ## Classes -/

structure ClassSig where
  file : FileSig
  name : String
deriving DecidableEq, Repr

namespace ClassSig

/-- A class declared outside the program, such as `Array`. -/
def builtin (name : String) : ClassSig :=
  ⟨.builtin, name⟩

def isDefault (c : ClassSig) : Bool :=
  c.name == Naming.defaultClass

def isBuiltin (c : ClassSig) : Bool :=
  c.file == .builtin

def render (c : ClassSig) : String :=
  c.file.render ++ ": " ++ c.name

end ClassSig

/-! ## Methods -/

structure MethodSig where
  owner : ClassSig
  name : String
deriving DecidableEq, Repr

namespace MethodSig

def isConstructor (m : MethodSig) : Bool :=
  m.name == Naming.constructor

/-- Arrow functions see the receiver of the method they are written in. -/
def isArrow (m : MethodSig) : Bool :=
  m.name.startsWith Naming.arrowStart

def isDefault (m : MethodSig) : Bool :=
  m.name == Naming.defaultMethod

def render (m : MethodSig) : String :=
  "<" ++ m.owner.render ++ "." ++ m.name ++ "()>"

/-- What methods are ordered by: project, file, class and name, each by code points. -/
def sortKey (m : MethodSig) : List String :=
  [m.owner.file.project, m.owner.file.name, m.owner.name, m.name]

/-- The order of methods in listings. -/
def le (a b : MethodSig) : Bool :=
  !decide (b.sortKey < a.sortKey)

end MethodSig

/-- The methods in order, each once. -/
def sortedMethods (ms : List MethodSig) : List MethodSig :=
  ms.eraseDups.mergeSort MethodSig.le

/-! ## Fields -/

/-- A field; the class is missing when it is not known which one declares it. -/
structure FieldSig where
  owner : Option ClassSig
  name : String
  isStatic : Bool
deriving DecidableEq, Repr

namespace FieldSig

def render (f : FieldSig) : String :=
  match f.owner with
  | some c => "<" ++ c.render ++ "." ++ f.name ++ ">"
  | none => "<_." ++ f.name ++ ">"

end FieldSig

namespace FileSig

/-- The class that holds the top-level functions of a file. -/
def defaultClass (f : FileSig) : ClassSig :=
  ⟨f, Naming.defaultClass⟩

/-- The method that holds the top-level statements of a file. -/
def defaultMethod (f : FileSig) : MethodSig :=
  ⟨f.defaultClass, Naming.defaultMethod⟩

end FileSig

end PointsTo
