import PointsTo.Program.Value

/-!
# What a pointer stands for

The analysis follows pointers between entities: values of the program, and places that no value
names, such as the fields of an object or the slots of a library model. An entity knows nothing of
contexts; a node of the graph is an entity in a context.
-/

namespace PointsTo

abbrev NodeId := Nat

/-- A field of an object. All slots of an array or a container are one field. -/
inductive FieldKey where
  | named (name : String)
  | element
deriving DecidableEq, Repr

namespace FieldKey

def render : FieldKey → String
  | named name => name
  | element => "[*]"

/-- The key of a declared field. Classes do not tell fields apart, only names do. -/
def ofSig (f : FieldSig) : FieldKey :=
  named f.name

end FieldKey

inductive Entity where
  | value (v : ValueId)
  | staticField (field : FieldSig)
  /-- A field of the object `obj`. -/
  | objField (obj : NodeId) (key : FieldKey)
  /-- The function that `bind` makes from `target` at a statement. -/
  | boundFunction (stmt : StmtId) (target : NodeId)
  | globalThis
  /-- What a file exports under a name. -/
  | exported (file : FileSig) (name : String)
  /-- The object that a library call of unknown effect returns. -/
  | sdkReturn (stmt : StmtId)
  /-- A slot that a library model keeps for itself. -/
  | modelSlot (owner key : String)
deriving DecidableEq, Repr

namespace Entity

def render : Entity → String
  | value v => s!"v{v}"
  | staticField field => field.render
  | objField obj key => s!"n{obj}." ++ key.render
  | boundFunction stmt target => s!"bind(n{target})@s{stmt}"
  | globalThis => "globalThis"
  | exported file name => "export " ++ name ++ " of " ++ file.render
  | sdkReturn stmt => s!"sdk@s{stmt}"
  | modelSlot owner key => owner ++ ":" ++ key

def isObjField : Entity → Bool
  | objField .. => true
  | _ => false

end Entity

/-! ## Containers -/

/-- Library collections, by how they are filled. -/
inductive ContainerKind where
  | array
  | map
  | set
  | list
deriving DecidableEq, Repr

namespace ContainerKind

def name : ContainerKind → String
  | array => "Array"
  | map => "Map"
  | set => "Set"
  | list => "List"

/-- Classes are recognised as collections by name alone. -/
def ofClass? (c : ClassSig) : Option ContainerKind :=
  if ["Array", "ReadonlyArray"].contains c.name then some array
  else if ["Map", "WeakMap", "HashMap", "TreeMap", "LightWeightMap", "PlainArray"].contains c.name
  then some map
  else if ["Set", "WeakSet", "HashSet", "TreeSet", "LightWeightSet"].contains c.name then some set
  else if ["ArrayList", "List", "LinkedList", "Deque", "Queue", "Stack", "Vector"].contains c.name
  then some list
  else none

end ContainerKind

end PointsTo
