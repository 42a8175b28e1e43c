import PointsTo.Proofs.Analysis.Closure
import PointsTo.Proofs.CallGraph.Seeds
import PointsTo.Proofs.Program.Hierarchy

/-!
# Dispatch by class covers dispatch by object

A call on a receiver has two sets of callees: those that the class hierarchy allows, found downwards
from the declared class, and those that objects of the receiver tell, found upwards from the class
of each. The first set covers the second (`dispatch_covers_resolve`).

There is one exception. If the declared class neither has nor inherits a constructor, a constructor
call goes by the class of the object, while the hierarchy stays with the method that the call names
(`dispatch_not_covering`).
-/

namespace PointsTo

namespace Program

variable {p : Program} {c d : ClassSig}

/-! ## The two ways to dispatch -/

/-- A constructor call falls back on the class of the object: the declared class has no constructor
and inherits none. -/
def FallsBack (p : Program) (i : Invoke) : Prop :=
  i.method.isConstructor = true ∧ p.isSuperCall i = false ∧
    p.findMethod? i.method.owner i.method.name = none

section

variable {i : Invoke} {g : Pag} {obj : NodeId} {kind : Option ContainerKind} {t : MethodSig}
  {fn : Option FunctionObject}

/-- On an object of the class `c`, a call runs the method that the declared class has, if it is a
call on `super` or of a constructor, or else the one that `c` has. -/
theorem resolve?_heapObj (hi : i.kind = .member)
    (hobj : (g.node? obj).map Node.kind = some (.heapObj (some c) kind)) :
    p.resolve? g i obj = (if p.isSuperCall i then p.findMethod? i.method.owner i.method.name
      else if i.method.isConstructor then
        (p.findMethod? i.method.owner i.method.name).or (p.findMethod? c i.method.name)
      else p.findMethod? c i.method.name).map fun m => (m, none) := by
  unfold resolve?
  rw [hi, hobj]

/-- A call that does not depend on the receiver has the method that the declared class has. -/
theorem dispatch_of_declared (hi : i.kind = .member)
    (hfix : p.isSuperCall i = true ∨ i.method.isConstructor = true) :
    p.dispatch i = .fixed ((p.findMethod? i.method.owner i.method.name).getD i.method) := by
  have hcond : (p.isSuperCall i || i.method.isConstructor) = true := by simpa using hfix
  unfold dispatch
  rw [hi]
  exact if_pos hcond

/-- Any other call has the method of every class that inherits from the declared one. -/
theorem reaches_of_inherits (hi : i.kind = .member) (hsuper : p.isSuperCall i = false)
    (hctor : i.method.isConstructor = false) (hdeclared : (p.class? i.method.owner).isSome = true)
    (hc : p.Inherits c i.method.owner) (ht : p.findMethod? c i.method.name = some t) :
    (p.dispatch i).Reaches t := by
  have hroot : p.receiverRoot? i = some i.method.owner := if_pos hdeclared
  have hmem : (c, t) ∈ (p.classAndSubclasses i.method.owner).filterMap fun c =>
      (p.findMethod? c i.method.name).map fun m => (c, m) :=
    List.mem_filterMap.2 ⟨c, hc.mem_classAndSubclasses, by rw [ht]; rfl⟩
  unfold dispatch
  simp only [hi, hsuper, hctor, Bool.or_self, Bool.false_eq_true, if_false, hroot]
  split
  · rename_i hempty
    rw [List.isEmpty_iff.1 hempty] at hmem
    cases hmem
  · exact ⟨c, hmem⟩

/-- Let a call on a receiver name a method of a declared class. What an object of that class, or of
one that inherits from it, tells to be the callee is among the targets of the call, unless the call
falls back on the class of the object. Then the only target is the method that the call names. -/
theorem dispatch_covers_resolve (hi : i.kind = .member)
    (hdeclared : (p.class? i.method.owner).isSome = true) (hc : p.Inherits c i.method.owner)
    (hobj : (g.node? obj).map Node.kind = some (.heapObj (some c) kind))
    (ht : p.resolve? g i obj = some (t, fn)) :
    (p.dispatch i).Reaches t ∨
      p.FallsBack i ∧ p.dispatch i = .fixed i.method ∧ p.findMethod? c i.method.name = some t := by
  rw [resolve?_heapObj hi hobj] at ht
  obtain ⟨m, hm, heq⟩ := Option.map_eq_some_iff.1 ht
  cases heq
  cases hsuper : p.isSuperCall i with
  | true =>
    rw [hsuper, if_pos rfl] at hm
    rw [dispatch_of_declared hi (Or.inl hsuper), hm]
    exact Or.inl rfl
  | false =>
    rw [hsuper, if_neg Bool.false_ne_true] at hm
    cases hctor : i.method.isConstructor with
    | false =>
      rw [hctor, if_neg Bool.false_ne_true] at hm
      exact Or.inl (reaches_of_inherits hi hsuper hctor hdeclared hc hm)
    | true =>
      rw [hctor, if_pos rfl] at hm
      rw [dispatch_of_declared hi (Or.inr hctor)]
      cases hown : p.findMethod? i.method.owner i.method.name with
      | some m' =>
        rw [hown, Option.some_or] at hm
        cases hm
        exact Or.inl rfl
      | none =>
        rw [hown, Option.none_or] at hm
        exact Or.inr ⟨⟨hctor, hsuper, hown⟩, rfl, hm⟩

end

end Program

namespace Analysis

namespace Sample

open Program

def base : ClassSig := ⟨file, "A"⟩

def derived : ClassSig := ⟨file, "B"⟩

/-- The methods `m` and `constructor` of `B`, of which `A` has only `m`. -/
def inheriting : Program :=
  let (_, p) := (addFile {} file false).2.addClass file "A" none
  let (_, p) := p.addClass file "B" (some base)
  let (am, p) := p.addMethod base "m"
  let (_, p) := p.addMethod derived "m"
  let (_, p) := p.addMethod derived Naming.constructor
  let d := p.openBody main
  let (x, d) := d.localVar "x" (.object base)
  let (_, d) := d.assignNew x (.newObject derived)
  let (_, d) := d.call none { kind := .member, method := am, base := some x, args := [] }
  let (_, d) := d.call none
    { kind := .member, method := ⟨base, Naming.constructor⟩, base := some x, args := [] }
  d.close

end Sample

open Sample

/-- The statement 1 calls `m` on the object 0, which is of the class `B`. -/
theorem dispatch_covers_resolve_inheriting : ∃ i, inheriting.invokeOf? 1 = some i ∧
    inheriting.Inherits derived i.method.owner ∧
    inheriting.resolve? (result inheriting).pag i 0 = some (⟨derived, "m"⟩, none) ∧
    (inheriting.dispatch i).Reaches ⟨derived, "m"⟩ := by
  let i : Invoke := { kind := .member, method := ⟨base, "m"⟩, base := some 0, args := [] }
  obtain ⟨hi, hdeclared, hsub, hobj, ht⟩ : inheriting.invokeOf? 1 = some i ∧
      (inheriting.class? i.method.owner).isSome = true ∧
      inheriting.isSubclassOf derived i.method.owner = true ∧
      ((result inheriting).pag.node? 0).map Node.kind = some (.heapObj (some derived) none) ∧
      inheriting.resolve? (result inheriting).pag i 0 = some (⟨derived, "m"⟩, none) := by
    decide +kernel
  have hinherits := Program.inherits_of_isSubclassOf hsub
  refine ⟨i, hi, hinherits, ht, ?_⟩
  refine (Program.dispatch_covers_resolve rfl hdeclared hinherits hobj ht).resolve_right ?_
  rintro ⟨⟨hctor, -⟩, -⟩
  cases hctor

/-- The statement 2 calls the constructor of `A` on it. There is none, so the object tells that of
`B`, which is no target of the call. -/
theorem dispatch_not_covering : ∃ i, inheriting.invokeOf? 2 = some i ∧ i.kind = .member ∧
    (inheriting.class? i.method.owner).isSome = true ∧ inheriting.Inherits derived i.method.owner ∧
    ((result inheriting).pag.node? 0).map Node.kind = some (.heapObj (some derived) none) ∧
    inheriting.resolve? (result inheriting).pag i 0 =
      some (⟨derived, Naming.constructor⟩, none) ∧
    ¬(inheriting.dispatch i).Reaches ⟨derived, Naming.constructor⟩ := by
  let i : Invoke :=
    { kind := .member, method := ⟨base, Naming.constructor⟩, base := some 0, args := [] }
  obtain ⟨hi, hdeclared, hsub, hobj, ht, hfixed⟩ : inheriting.invokeOf? 2 = some i ∧
      (inheriting.class? i.method.owner).isSome = true ∧
      inheriting.isSubclassOf derived i.method.owner = true ∧
      ((result inheriting).pag.node? 0).map Node.kind = some (.heapObj (some derived) none) ∧
      inheriting.resolve? (result inheriting).pag i 0 =
        some (⟨derived, Naming.constructor⟩, none) ∧
      inheriting.dispatch i = .fixed ⟨base, Naming.constructor⟩ := by
    decide +kernel
  refine ⟨i, hi, rfl, hdeclared, Program.inherits_of_isSubclassOf hsub, hobj, ht, ?_⟩
  rw [hfixed]
  intro h
  exact absurd (congrArg MethodSig.owner h) (show derived ≠ base by decide)

end Analysis

end PointsTo
