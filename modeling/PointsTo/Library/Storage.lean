import PointsTo.Library.Model

/-!
# Stores with text keys

All stores of a class share their slots: one for each key. A write copies into the slot, a read
copies out of it. Keys that are no constants are not followed.
-/

namespace PointsTo.Library.Storage

open Build

def storeClasses : List String :=
  ["AppStorage", "LocalStorage", "PersistentStorage"]

def writers : List String :=
  ["set", "setOrCreate", "persistProp", "setAndLink", "setAndProp"]

def readers : List String :=
  ["get", "link", "prop", "setAndLink", "setAndProp"]

def slot (store key : String) : Entity :=
  .modelSlot "storage" (store ++ "::" ++ key)

/-- Models an access to a store; tells whether the method is one. -/
def access (p : Program) (c : ModelCall) (store : String) : Build Bool := do
  let isWrite := writers.contains c.callee.name
  let isRead := readers.contains c.callee.name
  if !isWrite && !isRead then return false
  if let some key := c.constArg? p 0 then
    let n ← nodeOf p Context.root (slot store key)
    if isWrite then
      if let some src ← argNode? p c 1 then discard (addEdge .copy src n)
    if isRead then
      if let some dst ← resultNode? p c then discard (addEdge .copy n dst)
  return true

/-- The store class of an object. -/
def storeOf? (g : Pag) (obj : NodeId) : Option String :=
  match (g.node? obj).map Node.kind with
  | some (.heapObj (some c) _) => if storeClasses.contains c.name then some c.name else none
  | _ => none

def model : LibraryModel where
  name := "storage"
  handles _ m := storeClasses.contains m.owner.name
  onCall p c := access p c c.callee.owner.name
  onObject p _ c role obj := do
    match role, storeOf? (← get).pag obj with
    | .arg _, _ | _, none => return false
    | _, some store => access p c store

end PointsTo.Library.Storage
