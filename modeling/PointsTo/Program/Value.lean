import PointsTo.Program.Signature

/-!
# Values

Everything that a statement can mention is a value of the program, named by a dense id. Locals are
values too: one id stands for the local wherever it is read or written. Values refer to each other
by id, and only to values that were made earlier.
-/

namespace PointsTo

abbrev ValueId := Nat

abbrev StmtId := Nat

/-- What is known of a value before the analysis. -/
inductive Ty where
  | unknown
  | any
  | primitive (name : String)
  | object (cls : ClassSig)
  | function (method : MethodSig)
  | array (elem : Ty)
  /-- The variables that `nested` captures from the method it is written in. -/
  | lexicalEnv (nested : MethodSig) (captured : List ValueId)
deriving DecidableEq, Repr

namespace Ty

def classSig? : Ty → Option ClassSig
  | object c => some c
  | _ => none

def functionSig? : Ty → Option MethodSig
  | function m => some m
  | _ => none

def isFunction (t : Ty) : Bool :=
  t.functionSig?.isSome

def isPrimitive : Ty → Bool
  | primitive _ => true
  | _ => false

def isArray : Ty → Bool
  | array _ => true
  | _ => false

end Ty

/-- How a call says what it calls. -/
inductive InvokeKind where
  /-- By the name of a function or a static method. -/
  | named
  /-- By the name of a method and the receiver it is looked up on. -/
  | member
  /-- Through a local that holds a function. -/
  | pointer
deriving DecidableEq, Repr

/-- A call expression. The base is the receiver or the function pointer. -/
structure Invoke where
  kind : InvokeKind
  method : MethodSig
  base : Option ValueId
  args : List ValueId
deriving DecidableEq, Repr

inductive Value where
  | localVar (name : String) (ty : Ty) (method : MethodSig)
  | constant (ty : Ty) (text : String)
  | newObject (cls : ClassSig)
  | newArray (elem : Ty)
  | functionRef (method : MethodSig)
  | globalThis
  | fieldRef (base : ValueId) (field : FieldSig)
  | staticRef (field : FieldSig)
  | elementRef (base index : ValueId)
  | param (index : Nat) (ty : Ty)
  | thisRef (ty : Ty)
  /-- A variable of an enclosing method, read through the environment `env`. -/
  | captured (env : ValueId) (name : String)
  | cast (op : ValueId) (ty : Ty)
  /-- Arithmetic and the like; never an object. -/
  | compute (operands : List ValueId)
  | invoke (call : Invoke)
deriving DecidableEq, Repr

namespace Value

def isLocal : Value → Bool
  | localVar .. => true
  | _ => false

/-- Whether the value makes an abstract object when it is assigned. -/
def isAllocation : Value → Bool
  | newObject _ | newArray _ | functionRef _ | globalThis => true
  | _ => false

/-- Whether the value reads or writes a field or an element of another value. -/
def isFieldLike : Value → Bool
  | fieldRef .. | elementRef .. => true
  | _ => false

def isThisRef : Value → Bool
  | thisRef _ => true
  | _ => false

def invoke? : Value → Option Invoke
  | invoke call => some call
  | _ => none

def localName? : Value → Option String
  | localVar name .. => some name
  | _ => none

/-- The type that the value carries or that its form gives away. -/
def ty : Value → Ty
  | localVar _ t _ | constant t _ | param _ t | thisRef t | cast _ t => t
  | newObject c => .object c
  | newArray t => .array t
  | functionRef m => .function m
  | _ => .unknown

end Value

end PointsTo
