import PointsTo.Export.Doc
import PointsTo.Program.Basic

/-!
# Programs as documents

Signatures, types, values, statements and declarations, each with all its parts. A thing that comes
in several forms is a record with the form as its only key.
-/

namespace PointsTo

instance : ToDoc FileSig :=
  ⟨fun f => .record [("project", doc f.project), ("file_name", doc f.name)]⟩

instance : ToDoc ClassSig :=
  ⟨fun c => .record [("file", doc c.file), ("name", doc c.name)]⟩

instance : ToDoc MethodSig :=
  ⟨fun m => .record [("class", doc m.owner), ("name", doc m.name)]⟩

instance : ToDoc FieldSig :=
  ⟨fun f => .record [("class", doc f.owner), ("name", doc f.name), ("is_static", doc f.isStatic)]⟩

/-- A form with one part. -/
def Doc.form {α : Type} [ToDoc α] (name : String) (part : α) : Doc :=
  .record [(name, doc part)]

/-- A form with named parts. -/
def Doc.formOf (name : String) (parts : List (String × Doc)) : Doc :=
  .record [(name, .record parts)]

def Ty.toDoc : Ty → Doc
  | unknown => doc "Unknown"
  | any => doc "Any"
  | primitive name => .form "Primitive" name
  | object c => .form "Class" c
  | function m => .form "Function" m
  | array t => .form "Array" t.toDoc
  | lexicalEnv nested captured =>
    .formOf "LexicalEnv" [("nested_method", doc nested), ("closures", doc captured)]

instance : ToDoc Ty := ⟨Ty.toDoc⟩

instance : ToDoc InvokeKind where
  doc
    | .named => doc "Static"
    | .member => doc "Instance"
    | .pointer => doc "Pointer"

instance : ToDoc Invoke where
  doc i := .record [("kind", doc i.kind), ("method", doc i.method), ("base", doc i.base),
    ("args", doc i.args)]

def Value.toDoc : Value → Doc
  | localVar name ty method =>
    .formOf "Local" [("name", doc name), ("ty", doc ty), ("method", doc method)]
  | constant ty text => .formOf "Constant" [("ty", doc ty), ("text", doc text)]
  | newObject c => .formOf "NewObject" [("class", doc c)]
  | newArray t => .formOf "NewArray" [("elem_ty", doc t)]
  | functionRef m => .formOf "FunctionRef" [("method", doc m)]
  | globalThis => doc "GlobalThis"
  | fieldRef base field => .formOf "InstanceFieldRef" [("base", doc base), ("field", doc field)]
  | staticRef field => .formOf "StaticFieldRef" [("field", doc field)]
  | elementRef base index => .formOf "ArrayRef" [("base", doc base), ("index", doc index)]
  | param index ty => .formOf "ParameterRef" [("index", doc index), ("ty", doc ty)]
  | thisRef ty => .formOf "ThisRef" [("ty", doc ty)]
  | captured env name => .formOf "ClosureFieldRef" [("base", doc env), ("field_name", doc name)]
  | cast op ty => .formOf "Cast" [("op", doc op), ("ty", doc ty)]
  | compute operands => .formOf "Expr" [("operands", doc operands)]
  | invoke call => .form "Invoke" call

instance : ToDoc Value := ⟨Value.toDoc⟩

instance : ToDoc StmtKind where
  doc
    | .assign left right => .formOf "Assign" [("left", doc left), ("right", doc right)]
    | .invoke expr => .formOf "Invoke" [("expr", doc expr)]
    | .ret value => .formOf "Return" [("value", doc value)]
    | .nop => doc "Nop"

/-- A statement with its id. -/
def Stmt.toDoc (s : Stmt) (id : StmtId) : Doc :=
  .record [("id", doc id), ("method", doc s.method), ("kind", doc s.kind)]

instance : ToDoc Import where
  doc i := .record [("local_name", doc i.localName), ("from", doc i.source),
    ("imported_name", doc i.importedName)]

instance : ToDoc Export where
  doc e := .record [("name", doc e.name), ("value", doc e.value)]

instance : ToDoc FileDecl where
  doc f := .record [("signature", doc f.sig), ("classes", doc f.classes),
    ("imports", doc f.imports), ("exports", doc f.exports), ("is_sdk", doc f.isSdk)]

instance : ToDoc ClassDecl where
  doc c := .record [("signature", doc c.sig), ("super_class", doc c.superclass),
    ("methods", doc c.methods)]

instance : ToDoc Body where
  doc b := .record [("locals", doc b.locals), ("stmts", doc b.stmts)]

instance : ToDoc MethodDecl where
  doc m := .record [("signature", doc m.sig), ("is_static", doc m.isStatic),
    ("is_generated", doc m.isGenerated), ("outer_method", doc m.outer), ("body", doc m.body)]

instance : ToDoc Program where
  doc p := .record [("files", doc p.files.toList), ("classes", doc p.classes.toList),
    ("methods", doc p.methods.toList), ("values", doc p.values.toList)]

end PointsTo
