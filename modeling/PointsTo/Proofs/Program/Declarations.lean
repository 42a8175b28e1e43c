import Mathlib.Data.List.Nodup
import PointsTo.Proofs.Program.Assembly

/-!
# What is declared once

To declare a class or a method again changes nothing. So in a program that is put together a
signature has at most one declaration, and a class lists methods of its own only. A statement that
is made belongs to the body that is being written, and it is new: it stands at one place of one
body (`Assembled.listed`).
-/

namespace PointsTo

open Relation (ReflTransGen)

/-- Where keys tell things apart, looking for a key finds the thing. -/
theorem find?_of_nodup {α κ : Type} {xs : Array α} {key : α → κ} {p : α → Bool} {x : α}
    (hnodup : (xs.toList.map key).Nodup) (hx : x ∈ xs) (hp : ∀ y, p y = true ↔ key y = key x) :
    xs.find? p = some x := by
  obtain ⟨y, hy⟩ := Option.isSome_iff_exists.1 (Array.find?_isSome.2 ⟨x, hx, (hp x).2 rfl⟩)
  have hkey : key y = key x := (hp y).1 (Array.find?_some hy)
  have hmem : y ∈ xs := Array.mem_of_find?_eq_some hy
  rw [hy, List.inj_on_of_nodup_map hnodup (Array.mem_toList_iff.2 hmem)
    (Array.mem_toList_iff.2 hx) hkey]

/-- What is told apart from all before it may come last. -/
theorem nodup_push {α κ : Type} {xs : Array α} {key : α → κ} {x : α}
    (h : (xs.toList.map key).Nodup) (hx : ∀ y ∈ xs, key y ≠ key x) :
    ((xs.push x).toList.map key).Nodup := by
  rw [Array.toList_push, List.map_append, List.map_singleton]
  refine List.nodup_append.2 ⟨h, List.nodup_singleton _, fun k hk k' hk' => ?_⟩
  obtain ⟨y, hy, rfl⟩ := List.mem_map.1 hk
  rw [List.mem_singleton.1 hk']
  exact hx y (Array.mem_toList_iff.1 hy)

/-- Things are changed, but what tells them apart is not. -/
theorem nodup_map {α κ : Type} {xs : Array α} {key : α → κ} {f : α → α}
    (h : (xs.toList.map key).Nodup) (hf : ∀ x, key (f x) = key x) :
    ((xs.map f).toList.map key).Nodup := by
  have heq : (xs.map f).toList.map key = xs.toList.map key := by
    rw [Array.toList_map, List.map_map]
    exact List.map_congr_left fun x _ => hf x
  rwa [heq]

namespace Program

variable {p p' : Program} {c : ClassSig} {m : MethodSig}

theorem sig_of_class? {decl : ClassDecl} (h : p.class? c = some decl) : decl.sig = c := by
  simpa using Array.find?_some h

theorem sig_of_method? {decl : MethodDecl} (h : p.method? m = some decl) : decl.sig = m := by
  simpa using Array.find?_some h

/-- The statements are different ones of the table, and were made in the body of `m`. -/
structure Wrote (stmts : Array Stmt) (m : MethodSig) (ss : List StmtId) : Prop where
  nodup : ss.Nodup
  made : ∀ s ∈ ss, stmts[s]?.map Stmt.method = some m

/-- No signature is declared twice and no statement is written twice. -/
structure Listed (p : Program) : Prop where
  classes : (p.classes.toList.map ClassDecl.sig).Nodup
  methods : (p.methods.toList.map MethodDecl.sig).Nodup
  owned : ∀ c ∈ p.classes, ∀ m ∈ c.methods, m.owner = c.sig
  wrote : ∀ m ∈ p.methods, Wrote p.stmts m.sig m.stmts

theorem Wrote.mono {stmts stmts' : Array Stmt} {ss : List StmtId} (h : Wrote stmts m ss)
    (hle : ∀ (s : StmtId) st, stmts[s]? = some st → stmts'[s]? = some st) : Wrote stmts' m ss := by
  refine ⟨h.nodup, fun s hs => ?_⟩
  obtain ⟨st, hst, hm⟩ := Option.map_eq_some_iff.1 (h.made s hs)
  rw [hle s st hst, Option.map_some, hm]

theorem Listed.class?_iff (h : p.Listed) {decl : ClassDecl} :
    p.class? c = some decl ↔ decl ∈ p.classes ∧ decl.sig = c := by
  constructor
  · intro hc
    exact ⟨Array.mem_of_find?_eq_some hc, sig_of_class? hc⟩
  · rintro ⟨hmem, rfl⟩
    exact find?_of_nodup h.classes hmem fun y => by simp

theorem Listed.method?_iff (h : p.Listed) {decl : MethodDecl} :
    p.method? m = some decl ↔ decl ∈ p.methods ∧ decl.sig = m := by
  constructor
  · intro hm
    exact ⟨Array.mem_of_find?_eq_some hm, sig_of_method? hm⟩
  · rintro ⟨hmem, rfl⟩
    exact find?_of_nodup h.methods hmem fun y => by simp

/-! ## Bodies -/

namespace Draft

variable {d d' : Draft}

/-- The statements of the body that is being written are all its own. -/
structure Listed (d : Draft) : Prop where
  program : d.program.Listed
  wrote : Wrote d.program.stmts d.method d.body.stmts

theorem Listed.newValue (h : d.Listed) (v : Value) : (d.newValue v).2.Listed :=
  ⟨⟨h.program.classes, h.program.methods, h.program.owned, h.program.wrote⟩, h.wrote⟩

theorem Listed.localVar (h : d.Listed) (name : String) (ty : Ty) :
    (d.localVar name ty).2.Listed := by
  unfold Draft.localVar
  split
  · exact h
  · exact ⟨(h.newValue _).program, (h.newValue _).wrote⟩

/-- The statement has an id that no other has. -/
theorem Listed.newStmt (h : d.Listed) (kind : StmtKind) : (d.newStmt kind).2.Listed := by
  have hle : ∀ (s : StmtId) st, d.program.stmts[s]? = some st →
      (d.newStmt kind).2.program.stmts[s]? = some st := by
    intro s st hs
    have hlt : s < d.program.stmts.size := (Array.getElem?_eq_some_iff.1 hs).1
    exact (Array.getElem?_push_lt hlt).trans ((Array.getElem?_eq_getElem hlt).symm.trans hs)
  have hold := h.wrote.mono hle
  refine ⟨⟨h.program.classes, h.program.methods, h.program.owned,
    fun m hm => (h.program.wrote m hm).mono hle⟩, ?_, fun s hs => ?_⟩
  · refine List.nodup_append.2 ⟨h.wrote.nodup, List.nodup_singleton _, fun s hs s' hs' => ?_⟩
    rw [List.mem_singleton.1 hs']
    rintro rfl
    obtain ⟨st, hst, -⟩ := Option.map_eq_some_iff.1 (h.wrote.made _ hs)
    exact Nat.lt_irrefl _ (Array.getElem?_eq_some_iff.1 hst).1
  · rcases List.mem_append.1 hs with hs | hs
    · exact hold.made s hs
    · rw [List.mem_singleton.1 hs]
      show ((d.program.stmts.push { method := d.method, kind })[d.program.stmts.size]?).map
        Stmt.method = some d.method
      rw [Array.getElem?_push_size]
      rfl

theorem Listed.assignNew (h : d.Listed) (x : ValueId) (v : Value) :
    (d.assignNew x v).2.Listed :=
  (h.newValue v).newStmt _

theorem Listed.storeNew (h : d.Listed) (v : Value) (x : ValueId) : (d.storeNew v x).2.Listed :=
  (h.newValue v).newStmt _

theorem Listed.step (h : d.Listed) (hstep : Step d d') : d'.Listed := by
  cases hstep with
  | localVar name => exact h.localVar name _
  | constant => exact h.newValue _
  | closureEnv name nested => exact h.localVar name _
  | param index name => exact (h.localVar name _).assignNew _ _
  | thisLocal => exact (h.localVar Naming.this _).assignNew _ _
  | assign | ret | nop => exact h.newStmt _
  | assignNew | loadField | loadStatic => exact h.assignNew _ _
  | storeNew | storeField | storeStatic => exact h.storeNew _ _
  | cast | compute => exact (h.newValue _).newStmt _
  | @call dst invoke =>
    cases dst with
    | some x => exact (h.newValue (.invoke invoke)).newStmt _
    | none => exact (h.newValue (.invoke invoke)).newStmt _

end Draft

/-! ## Declarations -/

theorem Listed.addClass (h : p.Listed) (file : FileSig) (name : String)
    (superclass : Option ClassSig) : (p.addClass file name superclass).2.Listed := by
  unfold Program.addClass
  dsimp only
  split
  · exact h
  · rename_i hnew
    refine ⟨nodup_push h.classes fun c hc hsig => hnew ?_, h.methods, fun c hc => ?_, h.wrote⟩
    · rw [h.class?_iff.2 ⟨hc, hsig⟩]
      rfl
    · rcases Array.mem_push.1 hc with hc | rfl
      · exact h.owned c hc
      · nofun

/-- A method is declared without a body. -/
theorem Listed.addMethodDecl (h : p.Listed) {decl : MethodDecl} (hdecl : decl.body = none) :
    (p.addMethodDecl decl).2.Listed := by
  unfold Program.addMethodDecl
  split
  · exact h
  · rename_i hnew
    refine ⟨nodup_map h.classes fun c => ?_, nodup_push h.methods fun m hm hsig => hnew ?_,
      fun c hc m hm => ?_, fun m hm => ?_⟩
    · split <;> rfl
    · rw [h.method?_iff.2 ⟨hm, hsig⟩]
      rfl
    · obtain ⟨c', hc', rfl⟩ := Array.mem_map.1 hc
      split at hm
      · rename_i howner
        rw [if_pos howner]
        rcases List.mem_append.1 hm with hm | hm
        · exact h.owned c' hc' m hm
        · rw [List.mem_singleton.1 hm]
          exact howner.symm
      · rename_i howner
        rw [if_neg howner]
        exact h.owned c' hc' m hm
    · rcases Array.mem_push.1 hm with hm | rfl
      · exact (h.wrote m hm).mono fun _ _ => id
      · have hstmts : m.stmts = [] := by
          unfold MethodDecl.stmts
          rw [hdecl]
          rfl
        rw [hstmts]
        exact ⟨List.nodup_nil, nofun⟩

theorem Listed.addFile (h : p.Listed) (sig : FileSig) (isSdk : Bool) :
    (p.addFile sig isSdk).2.Listed := by
  unfold Program.addFile
  split
  · exact h
  · have hfile : Listed { p with files := p.files.push { sig, isSdk } } :=
      ⟨h.classes, h.methods, h.owned, h.wrote⟩
    exact (hfile.addClass sig Naming.defaultClass none).addMethodDecl rfl

/-- Nothing but what is said of a method changes. -/
theorem Listed.mapMethods (h : p.Listed) {g : MethodDecl → MethodDecl}
    (hsig : ∀ m, (g m).sig = m.sig) (hg : ∀ m ∈ p.methods, Wrote p.stmts m.sig (g m).stmts) :
    Listed { p with methods := p.methods.map g } := by
  refine ⟨h.classes, nodup_map h.methods hsig, h.owned, fun m hm => ?_⟩
  obtain ⟨m', hm', rfl⟩ := Array.mem_map.1 hm
  rw [hsig]
  exact hg m' hm'

theorem Listed.openBody (h : p.Listed) (m : MethodSig) : (p.openBody m).Listed := by
  refine ⟨h, ?_⟩
  show Wrote p.stmts m (((p.method? m).bind MethodDecl.body).getD {}).stmts
  cases hb : (p.method? m).bind MethodDecl.body with
  | none => exact ⟨List.nodup_nil, nofun⟩
  | some b =>
    obtain ⟨decl, hdecl, hbody⟩ := Option.bind_eq_some_iff.1 hb
    obtain ⟨hmem, rfl⟩ := h.method?_iff.1 hdecl
    have hstmts : decl.stmts = b.stmts := by
      unfold MethodDecl.stmts
      rw [hbody]
      rfl
    rw [Option.getD_some, ← hstmts]
    exact h.wrote decl hmem

theorem Draft.Listed.close {d : Draft} (h : d.Listed) : d.close.Listed := by
  refine h.program.mapMethods (fun m => ?_) fun m hm => ?_
  · split <;> rfl
  · split
    · rename_i hsig
      rw [hsig]
      exact h.wrote
    · exact h.program.wrote m hm

theorem Listed.declares (h : p.Listed) (hstep : Declares p p') : p'.Listed := by
  cases hstep with
  | file sig isSdk => exact h.addFile sig isSdk
  | cls file name superclass => exact h.addClass file name superclass
  | method | staticMethod | function | nested | arrow => exact h.addMethodDecl rfl
  | generated sig =>
    refine h.mapMethods (fun m => ?_) fun m hm => ?_
    · split <;> rfl
    · split <;> exact h.wrote m hm
  | imported | exported => exact ⟨h.classes, h.methods, h.owned, h.wrote⟩
  | body m hwrites =>
    refine Draft.Listed.close ?_
    induction hwrites with
    | refl => exact h.openBody m
    | tail _ hstep ih => exact ih.step hstep

/-- In a program that is put together no signature is declared twice, and no statement is written
twice. -/
theorem Assembled.listed (h : p.Assembled) : p.Listed := by
  induction h with
  | refl => exact ⟨List.nodup_nil, List.nodup_nil, by simp, by simp⟩
  | tail _ hstep ih => exact ih.declares hstep

/-! ## Statements -/

/-- A statement stands in the body of one method only. -/
theorem Listed.eq_of_mem_stmts (h : p.Listed) {m m' : MethodDecl} (hm : m ∈ p.methods)
    (hm' : m' ∈ p.methods) {s : StmtId} (hs : s ∈ m.stmts) (hs' : s ∈ m'.stmts) : m = m' := by
  have hsig : some m.sig = some m'.sig :=
    ((h.wrote m hm).made s hs).symm.trans ((h.wrote m' hm').made s hs')
  exact List.inj_on_of_nodup_map h.methods (Array.mem_toList_iff.2 hm)
    (Array.mem_toList_iff.2 hm') (Option.some.inj hsig)

end Program

end PointsTo
