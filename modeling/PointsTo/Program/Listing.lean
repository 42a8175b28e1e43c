import PointsTo.Program.Value
import PointsTo.Text.Quoted

/-!
# Values in messages

The full text of a value, for messages about the program: every part is named and spelt out.
-/

namespace PointsTo

def FileSig.listing (f : FileSig) : String :=
  Text.record "FileSignature"
    [("project", Text.quoted f.project), ("file_name", Text.quoted f.name)]

def ClassSig.listing (c : ClassSig) : String :=
  Text.record "ClassSignature" [("file", c.file.listing), ("name", Text.quoted c.name)]

def MethodSig.listing (m : MethodSig) : String :=
  Text.record "MethodSignature" [("class", m.owner.listing), ("name", Text.quoted m.name)]

def FieldSig.listing (f : FieldSig) : String :=
  Text.record "FieldSignature" [
    ("class", Text.optional (f.owner.map ClassSig.listing)),
    ("name", Text.quoted f.name),
    ("is_static", toString f.isStatic)]

/-- A reference to a value. -/
def listingOfId (v : ValueId) : String :=
  Text.tuple "ValueId" [toString v]

def listingOfIds (vs : List ValueId) : String :=
  Text.list (vs.map listingOfId)

def Ty.listing : Ty → String
  | unknown => "Unknown"
  | any => "Any"
  | primitive name => Text.tuple "Primitive" [Text.quoted name]
  | object c => Text.tuple "Class" [c.listing]
  | function m => Text.tuple "Function" [m.listing]
  | array t => Text.tuple "Array" [t.listing]
  | lexicalEnv nested captured => Text.tuple "LexicalEnv" [
      Text.record "LexicalEnvType" [
        ("nested_method", nested.listing), ("closures", listingOfIds captured)]]

def InvokeKind.listing : InvokeKind → String
  | named => "Static"
  | member => "Instance"
  | pointer => "Pointer"

def Invoke.listing (i : Invoke) : String :=
  Text.record "InvokeExpr" [
    ("kind", i.kind.listing),
    ("method", i.method.listing),
    ("base", Text.optional (i.base.map listingOfId)),
    ("args", listingOfIds i.args)]

def Value.listing : Value → String
  | localVar name ty method => Text.record "Local" [
      ("name", Text.quoted name), ("ty", ty.listing), ("method", method.listing)]
  | constant ty text => Text.record "Constant" [("ty", ty.listing), ("text", Text.quoted text)]
  | newObject c => Text.record "NewObject" [("class", c.listing)]
  | newArray t => Text.record "NewArray" [("elem_ty", t.listing)]
  | functionRef m => Text.record "FunctionRef" [("method", m.listing)]
  | globalThis => "GlobalThis"
  | fieldRef base field => Text.record "InstanceFieldRef" [
      ("base", listingOfId base), ("field", field.listing)]
  | staticRef field => Text.record "StaticFieldRef" [("field", field.listing)]
  | elementRef base index => Text.record "ArrayRef" [
      ("base", listingOfId base), ("index", listingOfId index)]
  | param index ty => Text.record "ParameterRef" [("index", toString index), ("ty", ty.listing)]
  | thisRef ty => Text.record "ThisRef" [("ty", ty.listing)]
  | captured env name => Text.record "ClosureFieldRef" [
      ("base", listingOfId env), ("field_name", Text.quoted name)]
  | cast op ty => Text.record "Cast" [("op", listingOfId op), ("ty", ty.listing)]
  | compute operands => Text.record "Expr" [("operands", listingOfIds operands)]
  | invoke call => Text.tuple "Invoke" [call.listing]

end PointsTo
