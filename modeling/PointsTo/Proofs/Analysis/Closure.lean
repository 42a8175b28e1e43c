import PointsTo.Program.Assembly
import PointsTo.Proofs.Analysis.Rounds

/-!
# Closure of the results

When an analysis completes, the objects that its nodes point to are closed under the edges of the
graph: what is made is where it is put, and copies have taken all of their source along.

Accesses to fields are closed too, but not in all cases. If a node is read into from a field of an
object that it points to itself, as by `x = x.next`, what it gets this way counts as joined with the
accesses through it and is not (`Pag.ReadsItself`). And an access that nothing is read or written by
need not have the fields of the objects made. Both happen: in the programs `chain` and `callInto`.
-/

namespace PointsTo

/-- The object is read into `n` from a field of an object that `n` points to. -/
def Pag.ReadsItself (g : Pag) (n o : NodeId) : Prop :=
  ∃ r key obj f, g.Accesses r n key ∧ ⟨.load, r, n⟩ ∈ g.edges ∧ obj ∈ g.ptsOf n ∧
    g.fieldNode? obj key = some f ∧ o ∈ g.ptsOf f

/-- Something is read or written by the access. -/
def Pag.IsUsed (g : Pag) (r : NodeId) : Prop :=
  (∃ d, ⟨.load, r, d⟩ ∈ g.edges) ∨ ∃ s, ⟨.write, s, r⟩ ∈ g.edges

/-- The field of the object that the access is about has a node. What is read by the access has what
the field has, and the field has what is written by the access. -/
def Pag.FieldClosed (g : Pag) (r : NodeId) (key : FieldKey) (o : NodeId) : Prop :=
  ∃ f, g.fieldNode? o key = some f ∧
    (∀ d, ⟨.load, r, d⟩ ∈ g.edges → g.ptsOf f ⊆ g.ptsOf d) ∧
    ∀ s, ⟨.write, s, r⟩ ∈ g.edges → g.ptsOf s ⊆ g.ptsOf f

namespace Analysis

variable {p : Program} {seed : Seed} {entries : List MethodSig} {c : Config} {scale : Scale}
  {a : Analysis}

/-! ## Samples -/

namespace Sample

open Program

/-- The file that the samples are in. -/
def file : FileSig := { project := "p", name := "a.ts" }

/-- The method that they start with. -/
def main : MethodSig := file.defaultMethod

/-- `a.next = b; b.next = c; x = a; x = x.next`, where `a`, `b` and `c` are new objects. -/
def chain : Program :=
  let d := openBody (addFile {} file false).2 main
  let (a, d) := d.localVar "a" .any
  let (b, d) := d.localVar "b" .any
  let (c, d) := d.localVar "c" .any
  let (x, d) := d.localVar "x" .any
  let (_, d) := d.assignNew a (.newObject (.builtin "Object"))
  let (_, d) := d.assignNew b (.newObject (.builtin "Object"))
  let (_, d) := d.assignNew c (.newObject (.builtin "Object"))
  let (_, d) := d.storeField a "next" b
  let (_, d) := d.storeField b "next" c
  let (_, d) := d.assign x a
  let (_, d) := d.loadField x x "next"
  d.close

/-- `g = f; x.next = g()`, where `x` is a new object and `f` does nothing. -/
def callInto : Program :=
  let (f, p) := (addFile {} file false).2.addFunction file "f"
  let d := p.openBody main
  let (x, d) := d.localVar "x" .any
  let (g, d) := d.localVar "g" .any
  let (_, d) := d.assignNew x (.newObject (.builtin "Object"))
  let (_, d) := d.assignNew g (.functionRef f)
  let (r, d) := d.newValue (d.fieldOf x "next")
  let (_, d) := d.call (some r) { kind := .pointer, method := f, base := some g, args := [] }
  (d.close.openBody f).nop.2.close

def run (p : Program) : Except Failure Unit × Analysis × Disk :=
  start { program := p, models := LibraryModel.standard, fuel := 20 } default
    (ofGraph (Seed.direct.graph p [main]) default) {}

/-- What the analysis of a sample ends with. -/
def result (p : Program) : Analysis :=
  (run p).2.1

theorem completes_result {p : Program} (h : (run p).1.isOk = true) :
    Completes p .direct [main] default (result p) :=
  completes_of_isOk rfl h

end Sample

open Sample

/-! ## Copies -/

theorem Finished.address (h : Finished p scale a) {o d : NodeId}
    (he : ⟨.address, o, d⟩ ∈ a.pag.edges) : o ∈ a.pag.ptsOf d :=
  h.mem_all.1 (h.edgeApplied he)

theorem Finished.copy (h : Finished p scale a) {s d : NodeId}
    (he : ⟨.copy, s, d⟩ ∈ a.pag.edges ∨ ⟨.interprocedural, s, d⟩ ∈ a.pag.edges) :
    a.pag.ptsOf s ⊆ a.pag.ptsOf d := by
  intro o ho
  rcases he with he | he
  · exact h.mem_all.1 (h.edgeApplied he o (h.settled ho))
  · exact h.mem_all.1 (h.edgeApplied he o (h.settled ho))

/-- Objects are where they are made, and wherever they are copied to. -/
theorem copies_closed (h : Completes p seed entries c a) :
    (∀ o d, ⟨.address, o, d⟩ ∈ a.pag.edges → o ∈ a.pag.ptsOf d) ∧
      ∀ s d, ⟨.copy, s, d⟩ ∈ a.pag.edges ∨ ⟨.interprocedural, s, d⟩ ∈ a.pag.edges →
        a.pag.ptsOf s ⊆ a.pag.ptsOf d :=
  ⟨fun _ _ he => h.finished.address he, fun _ _ he => h.finished.copy he⟩

theorem copies_closed_chain : Completes chain .direct [main] default (result chain) ∧
    0 ∈ (result chain).pag.ptsOf 8 ∧ (result chain).pag.ptsOf 10 ⊆ (result chain).pag.ptsOf 8 := by
  obtain ⟨hok, h₁, h₂, h₃⟩ : (run chain).1.isOk = true ∧
      ⟨.address, 0, 1⟩ ∈ (result chain).pag.edges ∧
      ⟨.copy, 1, 8⟩ ∈ (result chain).pag.edges ∧ ⟨.copy, 10, 8⟩ ∈ (result chain).pag.edges := by
    decide +kernel
  obtain ⟨haddress, hcopy⟩ := copies_closed (completes_result hok)
  exact ⟨completes_result hok, hcopy 1 8 (Or.inl h₂) (haddress 0 1 h₁), hcopy 10 8 (Or.inl h₃)⟩

/-! ## Fields -/

theorem Finished.readsItself (h : Finished p scale a) {n o : NodeId} (hl : a.SelfRead n o) :
    a.pag.ReadsItself n o := by
  obtain ⟨r, f, key, obj, hj, he, ho⟩ := hl
  exact ⟨r, key, obj, f, hj.access, he, h.mem_all.1 hj.fact, hj.field, h.mem_all.1 ho⟩

/-- A used access to a field of an object is closed, unless the object was read into the base of the
access from a field of an object at the base itself. -/
theorem fields_closed (h : Completes p seed entries c a) {r b o : NodeId} {key : FieldKey}
    (hr : a.pag.Accesses r b key) (hused : a.pag.IsUsed r) (ho : o ∈ a.pag.ptsOf b)
    (hself : ¬a.pag.ReadsItself b o) : a.pag.FieldClosed r key o := by
  have hlate : ¬a.SelfRead b o := fun hl => hself (h.finished.readsItself hl)
  have hread : ∀ d, ⟨.load, r, d⟩ ∈ a.pag.edges → ReadJoined a.pag o key d := fun d he =>
    (h.finished.edgeApplied he b key hr o (h.finished.settled ho)).resolve_right hlate
  have hwrite : ∀ s, ⟨.write, s, r⟩ ∈ a.pag.edges → WriteJoined a.pag o key s := fun s he =>
    (h.finished.edgeApplied he b key hr o (h.finished.settled ho)).resolve_right hlate
  obtain ⟨f, hf⟩ : ∃ f, a.pag.fieldNode? o key = some f := by
    rcases hused with ⟨d, he⟩ | ⟨s, he⟩
    · exact (hread d he).imp fun _ hj => hj.1
    · exact (hwrite s he).imp fun _ hj => hj.1
  -- The field is joined with each of them by a copy, and copies are closed.
  refine ⟨f, hf, fun d he => ?_, fun s he => ?_⟩
  · obtain ⟨f', hf', hcopy⟩ := hread d he
    cases hf.symm.trans hf'
    exact h.finished.copy (Or.inl hcopy)
  · obtain ⟨f', hf', hcopy⟩ := hwrite s he
    cases hf.symm.trans hf'
    exact h.finished.copy (Or.inl hcopy)

theorem fields_closed_chain : (result chain).pag.Accesses 6 1 (.named "next") ∧
    (result chain).pag.FieldClosed 6 (.named "next") 0 := by
  obtain ⟨hok, hr, hwrite, ho, hload⟩ : (run chain).1.isOk = true ∧
      (result chain).pag.Accesses 6 1 (.named "next") ∧
      ⟨.write, 3, 6⟩ ∈ (result chain).pag.edges ∧ 0 ∈ (result chain).pag.ptsOf 1 ∧
      ∀ e ∈ (result chain).pag.edges, e.kind = .load → e.dst = 8 := by
    decide +kernel
  refine ⟨hr, fields_closed (completes_result hok) hr (Or.inr ⟨3, hwrite⟩) ho ?_⟩
  -- Nothing is read into the node of `a`: the only load is into the node of `x`.
  rintro ⟨r, key, obj, f, -, he, -⟩
  cases hload _ he rfl

/-- Neither condition can be left out. After `x = x.next` in `chain`, the node 8 of `x` has the
object 2, but not the object 4 that the field of it has. In `callInto`, the access 4 has no field of
the object 0 made. -/
theorem fields_not_closed : (default : Config).Valid ∧
    (∃ a, Completes chain .direct [main] default a ∧
      a.pag.Accesses 9 8 (.named "next") ∧ 2 ∈ a.pag.ptsOf 8 ∧ a.pag.isObject 2 = true ∧
      a.pag.IsUsed 9 ∧ ¬a.pag.FieldClosed 9 (.named "next") 2) ∧
    ∃ a, Completes callInto .direct [main] default a ∧
      a.pag.Accesses 4 1 (.named "next") ∧ 0 ∈ a.pag.ptsOf 1 ∧ a.pag.isObject 0 = true ∧
      a.pag.fieldNode? 0 (.named "next") = none := by
  obtain ⟨hok, hr, ho, hobj, hload, hfield, hhas, hlacks⟩ : (run chain).1.isOk = true ∧
      (result chain).pag.Accesses 9 8 (.named "next") ∧ 2 ∈ (result chain).pag.ptsOf 8 ∧
      (result chain).pag.isObject 2 = true ∧ ⟨.load, 9, 8⟩ ∈ (result chain).pag.edges ∧
      (result chain).pag.fieldNode? 2 (.named "next") = some 11 ∧
      4 ∈ (result chain).pag.ptsOf 11 ∧ 4 ∉ (result chain).pag.ptsOf 8 := by
    decide +kernel
  obtain ⟨hok', hmissing⟩ : (run callInto).1.isOk = true ∧
      (result callInto).pag.Accesses 4 1 (.named "next") ∧
      0 ∈ (result callInto).pag.ptsOf 1 ∧ (result callInto).pag.isObject 0 = true ∧
      (result callInto).pag.fieldNode? 0 (.named "next") = none := by
    decide +kernel
  refine ⟨by decide, ⟨_, completes_result hok, hr, ho, hobj, Or.inl ⟨8, hload⟩, ?_⟩,
    ⟨_, completes_result hok', hmissing⟩⟩
  rintro ⟨f, hf, hclosed, -⟩
  cases hfield.symm.trans hf
  exact hlacks (hclosed 8 hload hhas)

end Analysis

end PointsTo
