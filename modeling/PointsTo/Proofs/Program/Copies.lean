import Mathlib.Data.Set.Basic
import Mathlib.Order.Bounds.Basic
import PointsTo.Program.Assembly
import PointsTo.Proofs.Program.Dealiasing

/-!
# Programs that only copy

A method at the top level of a file *only copies* if each of its statements allocates an object into
a local, assigns a local to a local with or without a cast, or reads or writes a static field
(`Program.OnlyCopies`). What its locals and the static fields hold is given by one inclusion for
each statement, whatever the order of the statements, and by nothing else: they hold what the least
solution has (`Program.contents`).

Every sequence of such statements can be assembled (`Program.onlyCopies_copyProgram`).
-/

namespace PointsTo

/-- What objects are moved between: locals, and static fields, of which there is one each. -/
inductive Place where
  | var (v : ValueId)
  | field (f : FieldSig)
deriving DecidableEq

/-- What is moved: a new object, named by the value that allocates it, or what a place holds. -/
inductive Source where
  | object (v : ValueId)
  | place (q : Place)
deriving DecidableEq

/-- The objects of a source, where `S` says what places hold. -/
def Source.objects (S : Place → Set ValueId) : Source → Set ValueId
  | object v => {v}
  | place q => S q

theorem Source.objects_mono {S S' : Place → Set ValueId} (h : S ≤ S') (src : Source) :
    src.objects S ⊆ src.objects S' := by
  cases src with
  | object v => exact Set.Subset.rfl
  | place q => exact h q

namespace Program

variable {p p' : Program} {m : MethodSig}

def stmtsOf (p : Program) (m : MethodSig) : List StmtId :=
  ((p.method? m).map MethodDecl.stmts).getD []

def localsOf (p : Program) (m : MethodSig) : List ValueId :=
  ((p.method? m).map MethodDecl.locals).getD []

def Assigns (p : Program) (stmt : StmtId) (left right : ValueId) : Prop :=
  (p.stmt? stmt).map Stmt.kind = some (.assign left right)

/-- What a statement moves where, if it is one of those that copy. -/
inductive Moves (p : Program) (stmt : StmtId) : Place → Source → Prop where
  /-- `x = new C` -/
  | new {x v : ValueId} {cls : ClassSig} (h : p.Assigns stmt x v) (hx : p.isLocal x = true)
      (hv : p.value? v = some (.newObject cls)) : Moves p stmt (.var x) (.object v)
  /-- `x = y` -/
  | copy {x y : ValueId} (h : p.Assigns stmt x y) (hx : p.isLocal x = true)
      (hy : p.isLocal y = true) : Moves p stmt (.var x) (.place (.var y))
  /-- `x = y as T` -/
  | cast {x y v : ValueId} {ty : Ty} (h : p.Assigns stmt x v) (hx : p.isLocal x = true)
      (hv : p.value? v = some (.cast y ty)) (hy : p.isLocal y = true) :
    Moves p stmt (.var x) (.place (.var y))
  /-- `x = C.f` -/
  | load {x v : ValueId} {f : FieldSig} (h : p.Assigns stmt x v) (hx : p.isLocal x = true)
      (hv : p.value? v = some (.staticRef f)) : Moves p stmt (.var x) (.place (.field f))
  /-- `C.f = y` -/
  | store {v y : ValueId} {f : FieldSig} (h : p.Assigns stmt v y)
      (hv : p.value? v = some (.staticRef f)) (hy : p.isLocal y = true) :
    Moves p stmt (.field f) (.place (.var y))

/-- The method is the top level of a file, its locals are its own, and it does nothing but copy. -/
structure OnlyCopies (p : Program) (m : MethodSig) : Prop where
  isDefault : m.isDefault = true
  isOwn : ∀ v ∈ p.localsOf m, ∃ name ty, p.value? v = some (.localVar name ty m)
  moves : ∀ stmt ∈ p.stmtsOf m, ∃ q src, p.Moves stmt q src

/-! ## What places hold -/

/-- Every place has what the method moves there. -/
def Satisfies (p : Program) (m : MethodSig) (S : Place → Set ValueId) : Prop :=
  ∀ stmt ∈ p.stmtsOf m, ∀ q src, p.Moves stmt q src → src.objects S ⊆ S q

/-- What every solution has. -/
def contents (p : Program) (m : MethodSig) (q : Place) : Set ValueId :=
  {v | ∀ S, p.Satisfies m S → v ∈ S q}

theorem contents_le {S : Place → Set ValueId} (h : p.Satisfies m S) : p.contents m ≤ S :=
  fun _ _ hv => hv S h

/-- This is a solution, so it is the least one. -/
theorem isLeast_contents (p : Program) (m : MethodSig) :
    IsLeast {S | p.Satisfies m S} (p.contents m) := by
  refine ⟨fun stmt hstmt q src hmove v hv S hS => ?_, fun S hS => contents_le hS⟩
  exact hS stmt hstmt q src hmove (src.objects_mono (contents_le hS) hv)

/-! ## Assembling such programs -/

/-- A statement that copies, over locals by name. -/
inductive Command where
  | new (x : String) (cls : ClassSig)
  | copy (x y : String)
  | cast (x y : String) (ty : Ty)
  | load (x : String) (cls : ClassSig) (name : String)
  | store (cls : ClassSig) (name y : String)

/-- Adds the statement to a body. -/
def Draft.add (d : Draft) : Command → Draft
  | .new x cls =>
    let (x, d) := d.localVar x .any
    (d.assignNew x (.newObject cls)).2
  | .copy x y =>
    let (x, d) := d.localVar x .any
    let (y, d) := d.localVar y .any
    (d.assign x y).2
  | .cast x y ty =>
    let (x, d) := d.localVar x .any
    let (y, d) := d.localVar y .any
    (d.cast x y ty).2
  | .load x cls name =>
    let (x, d) := d.localVar x .any
    (d.loadStatic x cls name).2
  | .store cls name y =>
    let (y, d) := d.localVar y .any
    (d.storeStatic cls name y).2

/-- A file with these statements at its top level. -/
def copyProgram (file : FileSig) (commands : List Command) : Program :=
  (commands.foldl Draft.add (openBody (addFile {} file false).2 file.defaultMethod)).close

/-- Values and statements stay what they are. -/
structure KeepsTables (p p' : Program) : Prop where
  value : ∀ {v x}, p.value? v = some x → p'.value? v = some x
  stmt : ∀ {s x}, p.stmt? s = some x → p'.stmt? s = some x

namespace KeepsTables

variable (h : p.KeepsTables p')
include h

theorem isLocal {v : ValueId} (hv : p.isLocal v = true) : p'.isLocal v = true := by
  obtain ⟨name, ty, m, hv⟩ := isLocal_iff.1 hv
  exact isLocal_iff.2 ⟨name, ty, m, h.value hv⟩

theorem assigns {stmt : StmtId} {left right : ValueId} (hs : p.Assigns stmt left right) :
    p'.Assigns stmt left right := by
  obtain ⟨st, hst, hkind⟩ := Option.map_eq_some_iff.1 hs
  exact Option.map_eq_some_iff.2 ⟨st, h.stmt hst, hkind⟩

theorem moves {stmt : StmtId} {q : Place} {src : Source} (hm : p.Moves stmt q src) :
    p'.Moves stmt q src := by
  cases hm with
  | new hs hx hv => exact .new (h.assigns hs) (h.isLocal hx) (h.value hv)
  | copy hs hx hy => exact .copy (h.assigns hs) (h.isLocal hx) (h.isLocal hy)
  | cast hs hx hv hy => exact .cast (h.assigns hs) (h.isLocal hx) (h.value hv) (h.isLocal hy)
  | load hs hx hv => exact .load (h.assigns hs) (h.isLocal hx) (h.value hv)
  | store hs hv hy => exact .store (h.assigns hs) (h.value hv) (h.isLocal hy)

end KeepsTables

namespace Draft

variable {d : Draft}

/-- So far, the body does nothing but copy. -/
structure OnlyCopies (d : Draft) : Prop where
  isOwn : ∀ v ∈ d.body.locals, ∃ name ty, d.program.value? v = some (.localVar name ty d.method)
  moves : ∀ stmt ∈ d.body.stmts, ∃ q src, d.program.Moves stmt q src

theorem newValue_keepsTables (d : Draft) (x : Value) :
    d.program.KeepsTables (d.newValue x).2.program where
  value h := by
    obtain ⟨hlt, hv⟩ := Array.getElem?_eq_some_iff.1 h
    exact (Array.getElem?_push_lt hlt).trans (congrArg some hv)
  stmt h := h

theorem value?_newValue (d : Draft) (x : Value) :
    (d.newValue x).2.program.value? (d.newValue x).1 = some x := by
  simp [newValue, value?]

theorem newStmt_keepsTables (d : Draft) (kind : StmtKind) :
    d.program.KeepsTables (d.newStmt kind).2.program where
  value h := h
  stmt h := by
    obtain ⟨hlt, hs⟩ := Array.getElem?_eq_some_iff.1 h
    exact (Array.getElem?_push_lt hlt).trans (congrArg some hs)

namespace OnlyCopies

variable (h : d.OnlyCopies)
include h

theorem newValue (x : Value) : (d.newValue x).2.OnlyCopies where
  isOwn v hv := by
    obtain ⟨name, ty, hv⟩ := h.isOwn v hv
    exact ⟨name, ty, (d.newValue_keepsTables x).value hv⟩
  moves stmt hs := by
    obtain ⟨q, src, hm⟩ := h.moves stmt hs
    exact ⟨q, src, (d.newValue_keepsTables x).moves hm⟩

/-- The local is there, or it is made. -/
theorem localVar (name : String) (ty : Ty) :
    (d.localVar name ty).2.OnlyCopies ∧ d.program.KeepsTables (d.localVar name ty).2.program ∧
      (d.localVar name ty).2.program.isLocal (d.localVar name ty).1 = true := by
  unfold Draft.localVar
  split
  · rename_i v hv
    obtain ⟨name', ty', hv⟩ := h.isOwn v (List.mem_of_find?_eq_some hv)
    exact ⟨h, ⟨fun hx => hx, fun hx => hx⟩, isLocal_iff.2 ⟨name', ty', d.method, hv⟩⟩
  · let x : Value := .localVar name ty d.method
    have hx := d.value?_newValue x
    have h₁ := h.newValue x
    refine ⟨⟨fun v hv => ?_, h₁.moves⟩, d.newValue_keepsTables x,
      isLocal_iff.2 ⟨name, ty, d.method, hx⟩⟩
    rcases List.mem_append.1 hv with hv | hv
    · exact h₁.isOwn v hv
    · rw [List.mem_singleton.1 hv]
      exact ⟨name, ty, hx⟩

/-- A statement is added that copies. -/
theorem assign {left right : ValueId}
    (hm : ∀ p' : Program, d.program.KeepsTables p' → ∀ stmt, p'.Assigns stmt left right →
      ∃ q src, p'.Moves stmt q src) : (d.assign left right).2.OnlyCopies where
  isOwn := h.isOwn
  moves stmt hs := by
    have hkeeps := d.newStmt_keepsTables (.assign left right)
    rcases List.mem_append.1 hs with hs | hs
    · obtain ⟨q, src, hm⟩ := h.moves stmt hs
      exact ⟨q, src, hkeeps.moves hm⟩
    · rw [List.mem_singleton.1 hs]
      refine hm _ hkeeps _ ?_
      simp [newStmt, Assigns, stmt?]

theorem add (command : Command) : (d.add command).OnlyCopies := by
  cases command with
  | new x cls =>
    obtain ⟨h₁, -, hx⟩ := h.localVar x .any
    refine (h₁.newValue (.newObject cls)).assign fun p' hp stmt hs => ?_
    exact ⟨_, _, .new hs (hp.isLocal ((newValue_keepsTables _ _).isLocal hx))
      (hp.value (value?_newValue _ _))⟩
  | copy x y =>
    obtain ⟨h₁, -, hx⟩ := h.localVar x .any
    obtain ⟨h₂, hkeeps, hy⟩ := h₁.localVar y .any
    refine h₂.assign fun p' hp stmt hs => ?_
    exact ⟨_, _, .copy hs (hp.isLocal (hkeeps.isLocal hx)) (hp.isLocal hy)⟩
  | cast x y ty =>
    obtain ⟨h₁, -, hx⟩ := h.localVar x .any
    obtain ⟨h₂, hkeeps, hy⟩ := h₁.localVar y .any
    refine (h₂.newValue (.cast _ ty)).assign fun p' hp stmt hs => ?_
    exact ⟨_, _, .cast hs (hp.isLocal ((newValue_keepsTables _ _).isLocal (hkeeps.isLocal hx)))
      (hp.value (value?_newValue _ _)) (hp.isLocal ((newValue_keepsTables _ _).isLocal hy))⟩
  | load x cls name =>
    obtain ⟨h₁, -, hx⟩ := h.localVar x .any
    refine (h₁.newValue (.staticRef ⟨some cls, name, true⟩)).assign fun p' hp stmt hs => ?_
    exact ⟨_, _, .load hs (hp.isLocal ((newValue_keepsTables _ _).isLocal hx))
      (hp.value (value?_newValue _ _))⟩
  | store cls name y =>
    obtain ⟨h₁, -, hy⟩ := h.localVar y .any
    refine (h₁.newValue (.staticRef ⟨some cls, name, true⟩)).assign fun p' hp stmt hs => ?_
    exact ⟨_, _, .store hs (hp.value (value?_newValue _ _))
      (hp.isLocal ((newValue_keepsTables _ _).isLocal hy))⟩

end OnlyCopies

theorem method_add (d : Draft) (command : Command) : (d.add command).method = d.method := by
  have hlocal : ∀ (d : Draft) name ty, (d.localVar name ty).2.method = d.method := by
    intro d name ty
    unfold Draft.localVar
    split <;> rfl
  cases command <;> simp [Draft.add, assignNew, storeNew, loadStatic, storeStatic, Draft.cast,
    Draft.assign, newStmt, Draft.newValue, hlocal]

/-- The body goes to its method. -/
theorem method?_close (d : Draft) : d.close.method? d.method =
    (d.program.method? d.method).map fun m => { m with body := some d.body } := by
  have hsame : ((fun m : MethodDecl => m.sig == d.method) ∘ fun m =>
      if m.sig = d.method then { m with body := some d.body } else m) =
        fun m => m.sig == d.method := by
    funext m
    dsimp only [Function.comp_apply]
    split <;> rfl
  unfold close method?
  rw [Array.find?_map, hsame]
  cases hm : d.program.methods.find? fun m => m.sig == d.method with
  | none => rfl
  | some m =>
    have hsig : m.sig = d.method := by simpa using Array.find?_some hm
    simp [hsig]

theorem OnlyCopies.close (h : d.OnlyCopies) (hd : d.method.isDefault = true) :
    d.close.OnlyCopies d.method := by
  have hkeeps : d.program.KeepsTables d.close := ⟨fun hx => hx, fun hx => hx⟩
  refine ⟨hd, fun v hv => ?_, fun stmt hs => ?_⟩
  · unfold localsOf at hv
    rw [method?_close] at hv
    cases hm : d.program.method? d.method with
    | none => simp [hm] at hv
    | some m => exact h.isOwn v (by simpa [hm, MethodDecl.locals] using hv)
  · unfold stmtsOf at hs
    rw [method?_close] at hs
    cases hm : d.program.method? d.method with
    | none => simp [hm] at hs
    | some m =>
      obtain ⟨q, src, hmoves⟩ := h.moves stmt (by simpa [hm, MethodDecl.stmts] using hs)
      exact ⟨q, src, hkeeps.moves hmoves⟩

end Draft

theorem onlyCopies_copyProgram (file : FileSig) (commands : List Command) :
    (copyProgram file commands).OnlyCopies file.defaultMethod := by
  let d := openBody (addFile {} file false).2 file.defaultMethod
  have hempty : d.body = {} := by
    simp [d, openBody, addFile, addClass, addStaticMethod, addMethodDecl, file?, class?, method?,
      FileSig.defaultMethod, FileSig.defaultClass]
  have hall : ∀ d : Draft, d.OnlyCopies → (commands.foldl Draft.add d).OnlyCopies ∧
      (commands.foldl Draft.add d).method = d.method := by
    induction commands with
    | nil => exact fun d h => ⟨h, rfl⟩
    | cons command commands ih =>
      intro d h
      obtain ⟨h', hmethod⟩ := ih (d.add command) (h.add command)
      exact ⟨h', hmethod.trans (d.method_add command)⟩
  obtain ⟨h, hmethod⟩ := hall d ⟨by simp [hempty], by simp [hempty]⟩
  have hd : (commands.foldl Draft.add d).method = file.defaultMethod := hmethod
  have hclose := h.close (hd ▸ rfl)
  rw [hd] at hclose
  exact hclose

end Program

end PointsTo
