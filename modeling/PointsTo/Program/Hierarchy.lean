import PointsTo.Program.Basic
import PointsTo.Reach

/-!
# Class hierarchy

Inheritance is read in both directions. Upwards, a class has one chain of superclasses, which ends
at a class that has none, that is not declared, or that came up before. Downwards, the subclasses
of a class are all that some declared class names it as superclass, directly or over others.
Hierarchies may be cyclic and may name undeclared classes; neither keeps the searches from ending.
-/

namespace PointsTo.Program

/-- The superclass that the declaration of a class names. -/
def superclass? (p : Program) (c : ClassSig) : Option ClassSig :=
  (p.class? c).bind ClassDecl.superclass

/-- The superclass of a class, if the program declares that too. -/
def declaredSuperclass? (p : Program) (c : ClassSig) : Option ClassDecl :=
  (p.superclass? c).bind p.class?

/-- A class and its superclasses, nearest first, each once. -/
def superChain (p : Program) (c : ClassSig) : List ClassSig :=
  Reach.chain p.superclass? p.classes.size [] c

/-- Whether `sub` is `sup` or inherits from it. -/
def isSubclassOf (p : Program) (sub sup : ClassSig) : Bool :=
  (p.superChain sub).contains sup

/-- The method of that name that a class declares or inherits. -/
def findMethod? (p : Program) (c : ClassSig) (name : String) : Option MethodSig :=
  (p.superChain c).findSome? fun d => (p.class? d).bind fun decl => decl.methodNamed? name

/-- Superclass and subclass of every declared class that has the former. -/
def inheritance (p : Program) : List (ClassSig × ClassSig) :=
  p.classes.toList.filterMap fun c => c.superclass.map fun s => (s, c.sig)

/-- The classes that name `c` as their superclass, in the order of declaration. -/
def directSubclasses (p : Program) (c : ClassSig) : List ClassSig :=
  Reach.successors p.inheritance c

/-- A class followed by all that inherit from it. -/
def classAndSubclasses (p : Program) (c : ClassSig) : List ClassSig :=
  Reach.walk p.inheritance [c] []

end PointsTo.Program
