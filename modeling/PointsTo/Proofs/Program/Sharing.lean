import PointsTo.Program.Scope
import PointsTo.Proofs.Reach

/-!
# Methods that share what they return

Whether a static method shares what it returns is read off the assignments of its body. Each of them
hands on what is in one slot to another, if one of the two is a local. Slots are locals, static
fields, and the fields of the global object, which are told apart by name. A field of a local is one
of the latter if the local holds the global object.

The method shares what it returns if one of its assignments puts a new object in a slot from which
it gets both to a slot that is shared and to a local that is returned (`Program.SharesReturned`).
-/

namespace PointsTo

/-- A slot that the method sees an object in. -/
inductive Slot where
  | value (v : ValueId)
  | staticField (field : FieldSig)
  /-- A field of the global object. -/
  | globalField (name : String)
deriving DecidableEq

namespace Slot

/-- All contexts see the same content. -/
def isShared : Slot → Bool
  | value _ => false
  | staticField _ | globalField _ => true

def isGlobalField : Slot → Bool
  | globalField _ => true
  | value _ | staticField _ => false

@[simp]
theorem isGlobalField_value (v : ValueId) : (value v).isGlobalField = false :=
  rfl

@[simp]
theorem isGlobalField_staticField (field : FieldSig) :
    (staticField field).isGlobalField = false :=
  rfl

end Slot

namespace Program

/-- The field of the global object that a field of a local is. -/
def globalField? (p : Program) (base : ValueId) (field : FieldSig) : Option Slot :=
  if p.holdsGlobalThis base then some (.globalField field.name) else none

theorem isShared_of_globalField? {p : Program} {base : ValueId} {field : FieldSig} {a : Slot}
    (h : p.globalField? base field = some a) : a.isShared = true ∧ a.isGlobalField = true := by
  unfold globalField? at h
  split at h
  · cases h
    exact ⟨rfl, rfl⟩
  · cases h

/-- The slot that an expression reads. -/
def source? (p : Program) (v : ValueId) : Option Slot :=
  match p.value? v with
  | some (.localVar ..) | some (.param ..) | some (.thisRef _) | some (.captured ..) =>
    some (.value v)
  | some (.cast op _) => if p.isLocal op then some (.value op) else none
  | some (.staticRef field) => some (.staticField field)
  | some (.fieldRef base field) => p.globalField? base field
  | _ => none

/-- The slot that is written by an assignment to the expression. -/
def target? (p : Program) (v : ValueId) : Option Slot :=
  match p.value? v with
  | some (.localVar ..) => some (.value v)
  | some (.staticRef field) => some (.staticField field)
  | some (.fieldRef base field) => p.globalField? base field
  | _ => none

/-- From where to where an assignment hands something on. -/
def handsOn? (p : Program) (a : ValueId × ValueId) : Option (Slot × Slot) :=
  if p.isLocal a.1 || p.isLocal a.2 then
    (p.source? a.2).bind fun src => (p.target? a.1).map fun dst => (src, dst)
  else none

/-- The expression makes an object of a class. -/
def isNew (p : Program) (v : ValueId) : Bool :=
  match p.value? v with
  | some (.newObject _) => true
  | _ => false

/-- Where an assignment puts a new object. -/
def allocates? (p : Program) (a : ValueId × ValueId) : Option Slot :=
  if p.isNew a.2 then p.target? a.1 else none

variable {p : Program} {left right : ValueId}

theorem source?_of_isLocal (h : p.isLocal right = true) :
    p.source? right = some (.value right) := by
  obtain ⟨value, hv, hlocal⟩ := Option.any_eq_true _ _ |>.1 h
  cases value with
  | localVar => simp only [source?, hv]
  | _ => cases hlocal

theorem target?_of_isLocal (h : p.isLocal left = true) : p.target? left = some (.value left) := by
  obtain ⟨value, hv, hlocal⟩ := Option.any_eq_true _ _ |>.1 h
  cases value with
  | localVar => simp only [target?, hv]
  | _ => cases hlocal

theorem isNew_of_isLocal (h : p.isLocal right = true) : p.isNew right = false := by
  obtain ⟨value, hv, hlocal⟩ := Option.any_eq_true _ _ |>.1 h
  cases value with
  | localVar => simp only [isNew, hv]
  | _ => cases hlocal

theorem isNew_of_not (h : ¬(p.value? right).any Value.isAllocation = true) :
    p.isNew right = false := by
  unfold isNew
  split
  · rename_i hv
    rw [hv] at h
    exact absurd rfl h
  · rfl

/-- What is read into a local. -/
theorem handsOn?_of_isLocal_left (h : p.isLocal left = true) :
    p.handsOn? (left, right) = (p.source? right).map fun src => (src, .value left) := by
  unfold handsOn?
  rw [h, Bool.true_or, if_pos rfl, target?_of_isLocal h]
  cases p.source? right <;> rfl

/-- What is written from a local. -/
theorem handsOn?_of_isLocal_right (h : p.isLocal right = true) :
    p.handsOn? (left, right) = (p.target? left).map fun dst => (.value right, dst) := by
  unfold handsOn?
  rw [h, Bool.or_true, if_pos rfl, source?_of_isLocal h]
  rfl

/-- Without a local, nothing is handed on. -/
theorem handsOn?_of_not (hl : p.isLocal left = false) (hr : p.isLocal right = false) :
    p.handsOn? (left, right) = none := by
  unfold handsOn?
  rw [hl, hr]
  rfl

theorem handsOn?_of_source? (h : p.source? right = none) : p.handsOn? (left, right) = none := by
  unfold handsOn?
  rw [h]
  exact ite_self none

/-- What a call gives is in no slot. -/
theorem source?_of_invoke (h : ((p.value? right).bind Value.invoke?).isSome = true) :
    p.source? right = none ∧ p.isNew right = false := by
  obtain ⟨call, hcall⟩ := Option.isSome_iff_exists.1 h
  obtain ⟨value, hv, hinvoke⟩ := Option.bind_eq_some_iff.1 hcall
  cases value with
  | invoke => simp [source?, isNew, hv]
  | _ => cases hinvoke

/-- What is written to no slot. -/
theorem handsOn?_of_target? (h : p.target? left = none) : p.handsOn? (left, right) = none := by
  unfold handsOn?
  rw [h]
  cases p.source? right <;> simp

theorem allocates?_of_target? (h : p.target? left = none) : p.allocates? (left, right) = none := by
  unfold allocates?
  rw [h]
  exact ite_self none

theorem allocates?_of_isNew (h : p.isNew right = false) : p.allocates? (left, right) = none := by
  unfold allocates?
  rw [h]
  rfl

/-- Both sides of a statement that assigns. -/
def assignment? (p : Program) (id : StmtId) : Option (ValueId × ValueId) :=
  match (p.stmt? id).map Stmt.kind with
  | some (.assign left right) => some (left, right)
  | _ => none

/-- The local that a statement returns. -/
def return? (p : Program) (id : StmtId) : Option ValueId :=
  match (p.stmt? id).map Stmt.kind with
  | some (.ret (some v)) => if p.isLocal v then some v else none
  | _ => none

theorem assignments_eq {m : MethodSig} {decl : MethodDecl} (hm : p.method? m = some decl) :
    p.assignments m = decl.stmts.filterMap p.assignment? := by
  unfold assignments
  rw [hm]
  rfl

theorem returnValues_eq {m : MethodSig} {decl : MethodDecl} (hm : p.method? m = some decl) :
    p.returnValues m = decl.stmts.filterMap p.return? := by
  unfold returnValues
  rw [hm]
  rfl

/-- From where to where the method hands objects on. -/
def handsOn (p : Program) (m : MethodSig) : List (Slot × Slot) :=
  (p.assignments m).filterMap p.handsOn?

/-- Where the method puts its new objects. -/
def allocations (p : Program) (m : MethodSig) : List Slot :=
  (p.assignments m).filterMap p.allocates?

/-- What is in the slot gets both to a shared slot and to a local that the method returns. -/
def SharesFrom (p : Program) (m : MethodSig) (a : Slot) : Prop :=
  (∃ b, Reach.Leads (p.handsOn m) a b ∧ b.isShared = true) ∧
    ∃ r ∈ p.returnValues m, Reach.Leads (p.handsOn m) a (.value r)

instance (p : Program) (m : MethodSig) (a : Slot) : Decidable (p.SharesFrom m a) :=
  decidable_of_iff ((∃ b ∈ Reach.walk (p.handsOn m) [a] [], b.isShared = true) ∧
    ∃ r ∈ p.returnValues m, .value r ∈ Reach.walk (p.handsOn m) [a] [])
    (by simp only [SharesFrom, Reach.mem_walk_iff])

/-- The method is static and has a body, and one new object of it, which is not put in a field of
the global object straight away, gets both to a shared slot and to a local that is returned. -/
def SharesReturned (p : Program) (m : MethodSig) : Prop :=
  ∃ decl, p.method? m = some decl ∧ decl.isStatic = true ∧ decl.hasBody = true ∧
    ∃ a ∈ p.allocations m, a.isGlobalField = false ∧ p.SharesFrom m a

instance (p : Program) (m : MethodSig) : Decidable (p.SharesReturned m) :=
  decidable_of_iff ((p.method? m).any (fun decl => decl.isStatic && decl.hasBody) = true ∧
    ∃ a ∈ p.allocations m, a.isGlobalField = false ∧ p.SharesFrom m a)
    (by simp only [SharesReturned, Option.any_eq_true, Bool.and_eq_true, exists_and_right,
      ← and_assoc])

end Program

end PointsTo
