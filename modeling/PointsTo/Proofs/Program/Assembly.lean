import PointsTo.Program.Assembly
import PointsTo.Proofs.Indices
import PointsTo.Proofs.Program.Vocabulary

/-!
# Programs that are put together

A program is put together by declarations, and a body by operations on a draft. If each of them is
given values that there are already, those that a type captures included, the program is *assembled*
(`Program.Assembled`). Then every position that it mentions is in its tables (`Assembled.bounded`).
-/

namespace PointsTo

open Relation (ReflTransGen)

/-- All of the values are in the table. -/
def Program.Has (p : Program) (vs : List ValueId) : Prop :=
  ∀ v ∈ vs, v < p.values.size

instance (p : Program) (vs : List ValueId) : Decidable (p.Has vs) :=
  inferInstanceAs (Decidable (∀ v ∈ vs, v < p.values.size))

/-- The body is made of values and statements that there are. -/
structure Body.Bounded (p : Program) (b : Body) : Prop where
  locals : p.Has b.locals
  stmts : ∀ s ∈ b.stmts, s < p.stmts.size

/-- Everything that the program mentions is in its tables. -/
structure Program.Bounded (p : Program) : Prop where
  value : ∀ x ∈ p.values, p.Has x.values
  stmt : ∀ st ∈ p.stmts, p.Has st.kind.values
  body : ∀ m ∈ p.methods, ∀ b, m.body = some b → b.Bounded p
  exported : ∀ f ∈ p.files, ∀ e ∈ f.exports, e.value < p.values.size

variable {p p' : Program}

theorem Program.Has.mono {vs : List ValueId} (h : p.Has vs)
    (hle : p.values.size ≤ p'.values.size) : p'.Has vs :=
  fun v hv => Nat.lt_of_lt_of_le (h v hv) hle

theorem Body.Bounded.mono {b : Body} (h : b.Bounded p) (hvalues : p.values.size ≤ p'.values.size)
    (hstmts : p.stmts.size ≤ p'.stmts.size) : b.Bounded p' :=
  ⟨h.locals.mono hvalues, fun s hs => Nat.lt_of_lt_of_le (h.stmts s hs) hstmts⟩

namespace Program

/-! ## What is assembled -/

/-- One operation on a draft, given values that there are. -/
inductive Draft.Step (d : Draft) : Draft → Prop where
  | localVar (name : String) {ty : Ty} (h : d.program.Has ty.captures) :
    Step d (d.localVar name ty).2
  | constant (text : String) {ty : Ty} (h : d.program.Has ty.captures) :
    Step d (d.constant text ty).2
  | closureEnv (name : String) (nested : MethodSig) {captured : List ValueId}
      (h : d.program.Has captured) :
    Step d (d.closureEnv name nested captured).2
  | param (index : Nat) (name : String) {ty : Ty} (h : d.program.Has ty.captures) :
    Step d (d.param index name ty).2
  | thisLocal : Step d d.thisLocal.2
  | assign {left right : ValueId} (h : d.program.Has [left, right]) :
    Step d (d.assign left right).2
  /-- An allocation, or a read of an element or a captured variable. -/
  | assignNew {dst : ValueId} {v : Value} (h : d.program.Has (dst :: v.values)) :
    Step d (d.assignNew dst v).2
  /-- A write of an element. -/
  | storeNew {v : Value} {src : ValueId} (h : d.program.Has (src :: v.values)) :
    Step d (d.storeNew v src).2
  | loadField {dst base : ValueId} (name : String) (h : d.program.Has [dst, base]) :
    Step d (d.loadField dst base name).2
  | storeField {base src : ValueId} (name : String) (h : d.program.Has [src, base]) :
    Step d (d.storeField base name src).2
  | loadStatic {dst : ValueId} (cls : ClassSig) (name : String) (h : d.program.Has [dst]) :
    Step d (d.loadStatic dst cls name).2
  | storeStatic (cls : ClassSig) (name : String) {src : ValueId} (h : d.program.Has [src]) :
    Step d (d.storeStatic cls name src).2
  | cast {dst src : ValueId} {ty : Ty} (h : d.program.Has (dst :: src :: ty.captures)) :
    Step d (d.cast dst src ty).2
  | compute {dst : ValueId} {operands : List ValueId} (h : d.program.Has (dst :: operands)) :
    Step d (d.compute dst operands).2
  | call {dst : Option ValueId} {invoke : Invoke}
      (h : d.program.Has (dst.toList ++ (Value.invoke invoke).values)) :
    Step d (d.call dst invoke).2
  | ret {value : Option ValueId} (h : d.program.Has value.toList) : Step d (d.ret value).2
  | nop : Step d d.nop.2

/-- One declaration. A body is opened, written and closed at once. -/
inductive Declares (p : Program) : Program → Prop where
  | file (sig : FileSig) (isSdk : Bool) : Declares p (p.addFile sig isSdk).2
  | cls (file : FileSig) (name : String) (superclass : Option ClassSig) :
    Declares p (p.addClass file name superclass).2
  | method (owner : ClassSig) (name : String) : Declares p (p.addMethod owner name).2
  | staticMethod (owner : ClassSig) (name : String) : Declares p (p.addStaticMethod owner name).2
  | function (file : FileSig) (name : String) : Declares p (p.addFunction file name).2
  | nested (outer : MethodSig) (name : String) : Declares p (p.addNested outer name).2
  | arrow (outer : MethodSig) (index : Nat) : Declares p (p.addArrow outer index).2
  | generated (sig : MethodSig) : Declares p (p.setGenerated sig)
  | imported (file : FileSig) (i : Import) : Declares p (p.addImport file i)
  | exported (file : FileSig) {e : Export} (h : e.value < p.values.size) :
    Declares p (p.addExport file e)
  | body (m : MethodSig) {d : Draft} (h : ReflTransGen Draft.Step (p.openBody m) d) :
    Declares p d.close

/-- The program is put together from nothing. -/
def Assembled (p : Program) : Prop :=
  ReflTransGen Declares {} p

/-! ## Bodies -/

/-- Tables grow, and what is new is bounded. -/
theorem Bounded.grow (h : p.Bounded) (hvalues : p.values.size ≤ p'.values.size)
    (hstmts : p.stmts.size ≤ p'.stmts.size)
    (value : ∀ x ∈ p'.values, x ∈ p.values ∨ p'.Has x.values)
    (stmt : ∀ st ∈ p'.stmts, st ∈ p.stmts ∨ p'.Has st.kind.values)
    (body : ∀ m ∈ p'.methods, ∀ b, m.body = some b →
      (∃ m' ∈ p.methods, m'.body = some b) ∨ b.Bounded p')
    (exported : ∀ f ∈ p'.files, ∀ e ∈ f.exports,
      (∃ f' ∈ p.files, e ∈ f'.exports) ∨ e.value < p'.values.size) : p'.Bounded where
  value x hx := (value x hx).elim (fun hx => (h.value x hx).mono hvalues) id
  stmt st hst := (stmt st hst).elim (fun hst => (h.stmt st hst).mono hvalues) id
  body m hm b hb := by
    rcases body m hm b hb with ⟨m', hm', hb'⟩ | hb
    · exact (h.body m' hm' b hb').mono hvalues hstmts
    · exact hb
  exported f hf e he := by
    rcases exported f hf e he with ⟨f', hf', he'⟩ | he
    · exact Nat.lt_of_lt_of_le (h.exported f' hf' e he') hvalues
    · exact he

namespace Draft

variable {d : Draft}

/-- The program is bounded, and so is the body that is being written. -/
structure Bounded (d : Draft) : Prop where
  program : d.program.Bounded
  body : d.body.Bounded d.program

theorem size_newValue (d : Draft) (v : Value) :
    (d.newValue v).2.program.values.size = d.program.values.size + 1 :=
  Array.size_push ..

theorem Bounded.newValue (h : d.Bounded) {v : Value} (hv : d.program.Has v.values) :
    (d.newValue v).2.Bounded := by
  have hsize : d.program.values.size ≤ (d.newValue v).2.program.values.size := by
    rw [size_newValue]
    exact Nat.le_succ _
  refine ⟨h.program.grow hsize (Nat.le_refl _) (fun x hx => ?_) (fun _ => Or.inl)
    (fun m hm b hb => Or.inl ⟨m, hm, hb⟩) fun f hf e he => Or.inl ⟨f, hf, he⟩,
    h.body.mono hsize (Nat.le_refl _)⟩
  rcases Array.mem_push.1 hx with hx | rfl
  · exact Or.inl hx
  · exact Or.inr (hv.mono hsize)

theorem Bounded.newStmt (h : d.Bounded) {kind : StmtKind} (hkind : d.program.Has kind.values) :
    (d.newStmt kind).2.Bounded := by
  have hsize : (d.newStmt kind).2.program.stmts.size = d.program.stmts.size + 1 :=
    Array.size_push ..
  have hle : d.program.stmts.size ≤ (d.newStmt kind).2.program.stmts.size := by
    rw [hsize]
    exact Nat.le_succ _
  refine ⟨h.program.grow (Nat.le_refl _) hle (fun _ => Or.inl) (fun st hst => ?_)
    (fun m hm b hb => Or.inl ⟨m, hm, hb⟩) fun f hf e he => Or.inl ⟨f, hf, he⟩,
    h.body.locals, fun s hs => ?_⟩
  · rcases Array.mem_push.1 hst with hst | rfl
    · exact Or.inl hst
    · exact Or.inr hkind
  · rcases List.mem_append.1 hs with hs | hs
    · exact Nat.lt_of_lt_of_le (h.body.stmts s hs) hle
    · rw [List.mem_singleton.1 hs, hsize]
      exact Nat.lt_succ_self _

theorem Bounded.assign (h : d.Bounded) {left right : ValueId}
    (hends : d.program.Has [left, right]) : (d.assign left right).2.Bounded :=
  h.newStmt hends

/-- Afterwards the local is there. -/
theorem Bounded.localVar (h : d.Bounded) (name : String) {ty : Ty}
    (hty : d.program.Has ty.captures) : (d.localVar name ty).2.Bounded ∧
      d.program.values.size ≤ (d.localVar name ty).2.program.values.size ∧
      (d.localVar name ty).1 < (d.localVar name ty).2.program.values.size := by
  unfold Draft.localVar
  split
  · rename_i v hv
    exact ⟨h, Nat.le_refl _, h.body.locals v (List.mem_of_find?_eq_some hv)⟩
  · have hnew := h.newValue (v := .localVar name ty d.method) hty
    have hsize := size_newValue d (.localVar name ty d.method)
    refine ⟨⟨hnew.program, fun v hv => ?_, hnew.body.stmts⟩, ?_, ?_⟩
    · rcases List.mem_append.1 hv with hv | hv
      · exact hnew.body.locals v hv
      · rw [List.mem_singleton.1 hv]
        exact hsize ▸ Nat.lt_succ_self _
    · exact hsize ▸ Nat.le_succ _
    · exact hsize ▸ Nat.lt_succ_self _

/-- A new value is made, and assigned or assigned to. -/
theorem Bounded.newAssign (h : d.Bounded) {other : ValueId} {v : Value}
    (hv : d.program.Has (other :: v.values)) : (d.assignNew other v).2.Bounded ∧
      (d.storeNew v other).2.Bounded := by
  have hnew := h.newValue fun w hw => hv w (List.mem_cons_of_mem _ hw)
  have hsize := size_newValue d v
  have hother : other < d.program.values.size := hv other List.mem_cons_self
  have hin : ∀ w, w = other ∨ w = d.program.values.size →
      w < (d.newValue v).2.program.values.size := by
    intro w hw
    rw [hsize]
    rcases hw with rfl | rfl
    · exact Nat.lt_succ_of_lt hother
    · exact Nat.lt_succ_self _
  refine ⟨hnew.assign fun w hw => hin w ?_, hnew.assign fun w hw => hin w ?_⟩
  · simpa using hw
  · simpa [or_comm] using hw

theorem Bounded.step {d' : Draft} (h : d.Bounded) (hstep : Step d d') : d'.Bounded := by
  cases hstep with
  | localVar name hty => exact (h.localVar name hty).1
  | constant text hty => exact h.newValue hty
  | @closureEnv name nested captured hcaptured =>
    have hty : d.program.Has (Ty.lexicalEnv nested captured).captures := hcaptured
    exact (h.localVar name hty).1
  | param index name hty =>
    obtain ⟨hd, hle, hx⟩ := h.localVar name hty
    refine (hd.newAssign fun w hw => ?_).1
    rcases List.mem_cons.1 hw with rfl | hw
    · exact hx
    · exact hty.mono hle w hw
  | thisLocal =>
    have hty : d.program.Has (Ty.object d.method.owner).captures := nofun
    obtain ⟨hd, -, hx⟩ := h.localVar Naming.this hty
    refine (hd.newAssign fun w hw => ?_).1
    rw [List.mem_singleton.1 hw]
    exact hx
  | assign hends => exact h.assign hends
  | assignNew hv => exact (h.newAssign hv).1
  | storeNew hv => exact (h.newAssign hv).2
  | loadField name hends => exact (h.newAssign hends).1
  | storeField name hends => exact (h.newAssign hends).2
  | loadStatic cls name hdst => exact (h.newAssign hdst).1
  | storeStatic cls name hsrc => exact (h.newAssign hsrc).2
  | cast hv => exact (h.newAssign (v := .cast _ _) hv).1
  | compute hv => exact (h.newAssign (v := .compute _) hv).1
  | @call dst invoke hv =>
    cases dst with
    | some x => exact (h.newAssign (v := .invoke invoke) hv).1
    | none =>
      refine (h.newValue (v := .invoke invoke) hv).newStmt fun w hw => ?_
      rw [List.mem_singleton.1 hw, size_newValue]
      exact Nat.lt_succ_self _
  | ret hv => exact h.newStmt hv
  | nop => exact h.newStmt nofun

end Draft

/-! ## Declarations -/

/-- A declaration leaves the tables as they are. -/
theorem Bounded.declare (h : p.Bounded) (hvalues : p'.values = p.values)
    (hstmts : p'.stmts = p.stmts)
    (body : ∀ m ∈ p'.methods, ∀ b, m.body = some b → ∃ m' ∈ p.methods, m'.body = some b)
    (exported : ∀ f ∈ p'.files, ∀ e ∈ f.exports, ∃ f' ∈ p.files, e ∈ f'.exports) :
    p'.Bounded :=
  h.grow (by rw [hvalues]) (by rw [hstmts]) (fun _ hx => Or.inl (hvalues ▸ hx))
    (fun _ hst => Or.inl (hstmts ▸ hst)) (fun m hm b hb => Or.inl (body m hm b hb))
    fun f hf e he => Or.inl (exported f hf e he)

theorem Bounded.addClass (h : p.Bounded) (file : FileSig) (name : String)
    (superclass : Option ClassSig) : (p.addClass file name superclass).2.Bounded := by
  unfold Program.addClass
  dsimp only
  split
  · exact h
  · refine h.declare rfl rfl (fun m hm b hb => ⟨m, hm, hb⟩) fun f hf e he => ?_
    obtain ⟨f', hf', rfl⟩ := Array.mem_map.1 hf
    refine ⟨f', hf', ?_⟩
    split at he <;> exact he

/-- A method is declared without a body. -/
theorem Bounded.addMethodDecl (h : p.Bounded) {decl : MethodDecl} (hdecl : decl.body = none) :
    (p.addMethodDecl decl).2.Bounded := by
  unfold Program.addMethodDecl
  split
  · exact h
  · refine h.declare rfl rfl (fun m hm b hb => ?_) fun f hf e he => ⟨f, hf, he⟩
    rcases Array.mem_push.1 hm with hm | rfl
    · exact ⟨m, hm, hb⟩
    · rw [hdecl] at hb
      cases hb

theorem Bounded.addFile (h : p.Bounded) (sig : FileSig) (isSdk : Bool) :
    (p.addFile sig isSdk).2.Bounded := by
  unfold Program.addFile
  split
  · exact h
  · have hfile : Bounded { p with files := p.files.push { sig, isSdk } } := by
      refine h.declare rfl rfl (fun m hm b hb => ⟨m, hm, hb⟩) fun f hf e he => ?_
      rcases Array.mem_push.1 hf with hf | rfl
      · exact ⟨f, hf, he⟩
      · cases he
    exact (hfile.addClass sig Naming.defaultClass none).addMethodDecl rfl

/-- Nothing but what is said of a file changes. -/
theorem Bounded.mapFiles (h : p.Bounded) {g : FileDecl → FileDecl}
    (hg : ∀ f, ∀ e ∈ (g f).exports, e ∈ f.exports ∨ e.value < p.values.size) :
    Bounded { p with files := p.files.map g } := by
  refine h.grow (Nat.le_refl _) (Nat.le_refl _) (fun _ => Or.inl) (fun _ => Or.inl)
    (fun m hm b hb => Or.inl ⟨m, hm, hb⟩) fun f hf e he => ?_
  obtain ⟨f', hf', rfl⟩ := Array.mem_map.1 hf
  exact (hg f' e he).imp_left fun he => ⟨f', hf', he⟩

/-- Nothing but what is said of a method changes. -/
theorem Bounded.mapMethods (h : p.Bounded) {g : MethodDecl → MethodDecl}
    (hg : ∀ m b, (g m).body = some b → m.body = some b ∨ b.Bounded p) :
    Bounded { p with methods := p.methods.map g } := by
  refine h.grow (Nat.le_refl _) (Nat.le_refl _) (fun _ => Or.inl) (fun _ => Or.inl)
    (fun m hm b hb => ?_) fun f hf e he => Or.inl ⟨f, hf, he⟩
  obtain ⟨m', hm', rfl⟩ := Array.mem_map.1 hm
  exact (hg m' b hb).imp (fun hb => ⟨m', hm', hb⟩) fun hb => hb.mono (Nat.le_refl _) (Nat.le_refl _)

theorem Bounded.openBody (h : p.Bounded) (m : MethodSig) : (p.openBody m).Bounded := by
  refine ⟨h, ?_⟩
  show Body.Bounded p (((p.method? m).bind MethodDecl.body).getD {})
  cases hb : (p.method? m).bind MethodDecl.body with
  | none => exact ⟨nofun, nofun⟩
  | some b =>
    obtain ⟨decl, hdecl, hbody⟩ := Option.bind_eq_some_iff.1 hb
    exact h.body decl (Array.mem_of_find?_eq_some hdecl) b hbody

theorem Draft.Bounded.close {d : Draft} (h : d.Bounded) : d.close.Bounded := by
  refine h.program.mapMethods fun m b hb => ?_
  split at hb
  · cases hb
    exact Or.inr h.body
  · exact Or.inl hb

theorem Bounded.declares (h : p.Bounded) (hstep : Declares p p') : p'.Bounded := by
  cases hstep with
  | file sig isSdk => exact h.addFile sig isSdk
  | cls file name superclass => exact h.addClass file name superclass
  | method | staticMethod | function | nested | arrow => exact h.addMethodDecl rfl
  | generated sig =>
    refine h.mapMethods fun m b hb => Or.inl ?_
    split at hb <;> exact hb
  | imported file i =>
    refine h.mapFiles fun f e he => Or.inl ?_
    split at he <;> exact he
  | exported file hvalue =>
    refine h.mapFiles fun f e he => ?_
    split at he
    · rcases List.mem_append.1 he with he | he
      · exact Or.inl he
      · exact Or.inr (List.mem_singleton.1 he ▸ hvalue)
    · exact Or.inl he
  | body m hwrites =>
    refine Draft.Bounded.close ?_
    induction hwrites with
    | refl => exact h.openBody m
    | tail _ hstep ih => exact ih.step hstep

/-- A program that is put together mentions only what is in its tables. -/
theorem Assembled.bounded (h : p.Assembled) : p.Bounded := by
  induction h with
  | refl => exact ⟨by simp, by simp, by simp, by simp⟩
  | tail _ hstep ih => exact ih.declares hstep

/-! ## Positions -/

theorem Bounded.inRange (h : p.Bounded) {n : Nat} : Index.AllInRange p n p.indices := by
  simp only [indices, Index.allInRange_append, Index.allInRange_map, Index.allInRange_flatMap,
    List.mem_flatMap, Array.mem_toList_iff]
  refine ⟨⟨⟨?_, ?_⟩, fun m hm => ?_⟩, fun f hf e he => h.exported f hf e he⟩
  · rintro v ⟨x, hx, hv⟩
    exact h.value x hx v hv
  · rintro v ⟨st, hst, hv⟩
    exact h.stmt st hst v hv
  · cases hb : m.body with
    | none => exact Index.allInRange_nil
    | some b =>
      have hbody := h.body m hm b hb
      exact Index.allInRange_append.2 ⟨Index.allInRange_map.2 hbody.locals,
        Index.allInRange_map.2 hbody.stmts⟩

/-- What the program mentions is in the table. -/
theorem Bounded.lt_of_mentions (h : p.Bounded) {v : ValueId} (hv : p.Mentions v) :
    v < p.values.size := by
  rcases hv with hv | ⟨⟨m, kind⟩, hst, hv⟩ | ⟨x, hx, hv⟩
  · exact hv
  · refine h.stmt _ hst v ?_
    cases kind with
    | assign left right =>
      cases hv
      exact List.mem_cons_self
    | _ => cases hv
  · refine h.value x hx v ?_
    cases x with
    | fieldRef | elementRef =>
      cases hv
      exact List.mem_cons_self
    | invoke call => exact List.mem_append_left _ (Option.mem_toList.2 hv)
    | _ => cases hv

/-- What a call passes is in the table. -/
theorem Bounded.lt_of_args (h : p.Bounded) {stmt : StmtId} {i : Invoke}
    (hi : p.invokeOf? stmt = some i) : p.Has i.args :=
  fun v hv => h.value _ (mem_values_of_invokeOf? hi) v (List.mem_append_right _ hv)

end Program

end PointsTo
