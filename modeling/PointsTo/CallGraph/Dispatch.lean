import PointsTo.Program.Hierarchy

/-!
# Dispatch on the class hierarchy

What a call can reach judging by declarations alone. Calls by name, calls through a pointer, calls
on `super` and constructor calls have one target. Any other call on a receiver has one for every
class that the receiver may have: the declared class and those that inherit from it.
-/

namespace PointsTo

inductive Dispatch where
  | fixed (target : MethodSig)
  /-- The method that each possible receiver class runs. -/
  | virtual (targets : List (ClassSig × MethodSig))
deriving DecidableEq

namespace Program

/-- Whether the base of a call is the local `super`. -/
def isSuperCall (p : Program) (i : Invoke) : Bool :=
  i.base.bind p.localName? == some Naming.super

/-- The class whose subclasses a call on a receiver is dispatched over: the declared one, or the one
that the type of the receiver names, whichever the program declares. -/
def receiverRoot? (p : Program) (i : Invoke) : Option ClassSig :=
  if (p.class? i.method.owner).isSome then some i.method.owner
  else (i.base.bind fun b => (p.tyOf b).classSig?).filter fun c => (p.class? c).isSome

/-- What a call can reach by declaration. -/
def dispatch (p : Program) (i : Invoke) : Dispatch :=
  match i.kind with
  | .named => .fixed i.method
  | .pointer =>
    if (p.method? i.method).isSome then .fixed i.method
    else .fixed ((i.base.bind fun b => (p.tyOf b).functionSig?).getD i.method)
  | .member =>
    if p.isSuperCall i || i.method.isConstructor then
      .fixed ((p.findMethod? i.method.owner i.method.name).getD i.method)
    else match p.receiverRoot? i with
      | none => .fixed i.method
      | some root =>
        let targets := (p.classAndSubclasses root).filterMap fun c =>
          (p.findMethod? c i.method.name).map fun m => (c, m)
        if targets.isEmpty then .fixed i.method else .virtual targets

end Program

end PointsTo
