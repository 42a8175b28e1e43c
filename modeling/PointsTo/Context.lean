import PointsTo.Interning

/-!
# Calling contexts

A method is analysed once per *context*: the sequence of the last `k` items that led to it, oldest
first. What an item is depends on the sensitivity chosen: the call site passed, the receiver object
of the call, or the function entered. Items and contexts are interned, so equal sequences share one
id, and the id `0` is the empty sequence.

Element slots of containers live in a context of their own, `Context.container`, which no sequence
ever gets.
-/

namespace PointsTo

abbrev ContextId := Nat

/-- What calls are told apart by. -/
inductive Sensitivity where
  | callSite
  | object
  | function
deriving DecidableEq, Repr

/-- One step of a call string. -/
inductive ContextItem where
  | callSite (site callee : Nat)
  | object (obj : Nat)
  | function (func : Nat)
deriving DecidableEq

/-- The text of an item in a rendered context. -/
def ContextItem.render : ContextItem → String
  | callSite site callee => s!"cs{site}->f{callee}"
  | object obj => s!"obj{obj}"
  | function func => s!"f{func}"

/-- Ids of items, oldest first. -/
abbrev Context := List Nat

namespace Context

/-- The empty context, shared by everything that is not told apart by context. -/
def root : ContextId := 0

/-- The context of the element slots of containers. -/
def container : ContextId := (1 <<< 32) - 2

/-- The context one item on, of which the last `k` items are kept. -/
def append (ctx : Context) (item k : Nat) : Context :=
  (ctx ++ [item]).drop ((ctx ++ [item]).length - k)

theorem length_append_le (ctx : Context) (item k : Nat) : (ctx.append item k).length ≤ k := by
  simp only [append, List.length_drop]
  omega

end Context

/-- The items and contexts seen so far, with the strategy that makes new ones. -/
structure ContextTable where
  sensitivity : Sensitivity
  k : Nat
  items : Array ContextItem := #[]
  contexts : Array Context := #[[]]

namespace ContextTable

def context? (t : ContextTable) (cid : ContextId) : Option Context :=
  t.contexts[cid]?

def item? (t : ContextTable) (id : Nat) : Option ContextItem :=
  t.items[id]?

/-- The caller's context one item on. A caller without a recorded context counts as empty. -/
def extend (t : ContextTable) (caller : ContextId) (item : ContextItem) :
    ContextId × ContextTable :=
  let (id, items) := intern t.items item
  let (cid, contexts) := intern t.contexts (((t.context? caller).getD []).append id t.k)
  (cid, { t with items, contexts })

/-- The context that `func` is entered in when nothing calls it. -/
def entry (t : ContextTable) (func : Nat) : ContextId × ContextTable :=
  match t.sensitivity with
  | .callSite | .object => (Context.root, t)
  | .function => t.extend Context.root (.function func)

/-- The context of `callee` when called at `site` from `caller`, on the receiver `obj` if the call
has one. A call without receiver inherits the caller's context where receivers are what counts. -/
def select (t : ContextTable) (caller : ContextId) (site : Nat) (obj : Option Nat) (callee : Nat) :
    ContextId × ContextTable :=
  match t.sensitivity, obj with
  | .callSite, _ => t.extend caller (.callSite site callee)
  | .object, some obj => t.extend caller (.object obj)
  | .object, none => (if caller = Context.container then Context.root else caller, t)
  | .function, _ => t.extend caller (.function callee)

/-- A context as text, such as `[cs3->f2]`. -/
def render (t : ContextTable) (cid : ContextId) : String :=
  if cid = Context.container then "[container]"
  else match t.context? cid with
    | none => s!"[?{cid}]"
    | some ctx =>
      let parts := ctx.map fun id => ((t.item? id).map ContextItem.render).getD "?"
      "[" ++ ", ".intercalate parts ++ "]"

/-- Every context as text, by id. -/
def renderAll (t : ContextTable) : List String :=
  (List.range t.contexts.size).map t.render

end ContextTable

end PointsTo
