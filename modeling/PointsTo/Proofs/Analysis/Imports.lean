import PointsTo.Proofs.Analysis.Closure
import PointsTo.Proofs.Analysis.Driving
import PointsTo.Proofs.Links.Completeness

/-!
# What is imported is where it is used

A free local under a name that its file imports stands for what the other file exports, and has what
that has, once the analysis completes. But a local of the file's own top level comes first. It is
there if the top level just mentions the name, and what is imported does not reach it then
(`Analysis.imports_not_reached`).
-/

namespace PointsTo

namespace Program

/-- `x` is a free local of `m` under a name that the file imports, and `d` is the local that it is
imported from. -/
structure Imports (p : Program) (m : MethodSig) (name : String) (x d : ValueId) : Prop where
  inner : m.isDefault = false
  declared : ∃ decl, p.method? m = some decl ∧ x ∈ decl.locals
  named : ∃ ty, p.value? x = some (.localVar name ty m)
  free : p.definingStmts x = []
  ordinary : name ≠ Naming.this ∧ name ≠ Naming.globalThis
  imported : ∃ i, p.import? m.owner.file name = some i ∧
    p.exported? i.source i.importedName = some d
  isLocal : p.isLocal d = true

variable {p : Program} {m : MethodSig} {name : String} {x d : ValueId}

/-- What is imported is what the local stands for, if nothing else at the top level of the file has
the name. -/
theorem Imports.resolveFree? (h : p.Imports m name x d)
    (hown : ∀ y, p.localNamed? m.owner.file.defaultMethod name = some y → y = d) :
    p.resolveFree? x = some d := by
  obtain ⟨ty, hx⟩ := h.named
  obtain ⟨i, himport, hexport⟩ := h.imported
  have hfile : ∃ file, p.file? m.owner.file = some file := by
    cases hfile : p.file? m.owner.file with
    | none => simp [import?, hfile] at himport
    | some file => exact ⟨file, rfl⟩
  obtain ⟨file, hfile⟩ := hfile
  have hname : ¬(name == Naming.this || name == Naming.globalThis) = true := by
    simp [h.ordinary.1, h.ordinary.2]
  unfold Program.resolveFree?
  simp only [hx, h.inner, h.free, hfile, List.isEmpty_nil, Bool.not_true, Bool.or_self,
    Bool.false_eq_true, if_false, if_neg hname]
  cases hlocal : p.localNamed? m.owner.file.defaultMethod name with
  | some y => exact congrArg some (hown y hlocal)
  | none => simp [himport, hexport]

end Program

namespace Analysis

variable {p : Program} {seed : Seed} {entries : List MethodSig} {c : Config} {a : Analysis}

/-- The links of what an analysis has built are complete when it completes. -/
theorem Completes.complete (h : Completes p seed entries c a) : a.builder.Complete p := by
  refine h.onBuilder (R := Builder.KeepsComplete p) (o := .successes) ?_
    ⟨Builder.linked_ofGraph p _ c.backing c.sensitivity c.kLimit, nofun⟩
  rintro s rfl hs
  exact ⟨analysisGuarantees_keepsComplete hs.keepsLinks, fun _ =>
    Build.enterEntry_guarantees hs.keepsLinks.queueKeepsComplete⟩

/-- An import has arrived at a free local of the name, in each context that the method of the local
is laid out in: the node of the local has what any node of the exported local has. The top level of
the file must not have another local of the name. -/
theorem imports_reach (h : Completes p seed entries c a) {cid : ContextId} {f : FuncId}
    {m : MethodSig} {name : String} {x d : ValueId} (hf : (cid, f) ∈ a.builder.built)
    (hm : a.builder.graph.methodOf? f = some m) (hi : p.Imports m name x d)
    (hown : ∀ y, p.localNamed? m.owner.file.defaultMethod name = some y → y = d) :
    ∃ here, a.pag.find? cid (.value x) = some here ∧
      ∀ n ∈ a.pag.nodesOf d, a.pag.ptsOf n ⊆ a.pag.ptsOf here := by
  obtain ⟨decl, hdecl, hx⟩ := hi.declared
  have hres := hi.resolveFree? hown
  obtain ⟨y, hy, rfl, rfl, hsame, hother⟩ := Program.exists_freeLocal? hres hi.isLocal
  obtain ⟨here, hhere, hlink⟩ := h.complete.freeLinked hf hm hdecl hx hy
  rw [Program.entityOf_of_isLocal (Program.isLocal_of_resolveFree? hres)] at hhere
  have hlinked := h.complete.linked
  refine ⟨here, hhere, fun n hn => ?_⟩
  by_cases hfile : p.fileOf? y.decl = p.fileOf? y.name
  · rw [hsame hfile] at hlink
    exact h.finished.copy (Or.inr (hlinked.edge hlink n hn))
  · -- From another file it comes by way of the node of the export.
    obtain ⟨ty, hvalue⟩ := hi.named
    obtain ⟨i, himport, -⟩ := hi.imported
    have himportOf : p.importOf? y.name = some i := by
      unfold Program.importOf?
      rw [hvalue]
      exact himport
    rw [hother hfile i himportOf] at hlink
    obtain ⟨shared, -, hcopy, hedge⟩ := hlink
    have hexport := h.finished.copy (Or.inl (hlinked.edge hcopy n hn))
    exact List.Subset.trans hexport (h.finished.copy (Or.inr hedge))

namespace Sample

open Program Builder.Sample

/-- `d = new Object` in the second file, which exports it. The first file imports it as `x`, and a
function there does `z = x`. If the name is `mentioned`, `main` does `y = x`. -/
def importing (mentioned : Bool) : Program :=
  let (_, p) := ((addFile {} file false).2.addFile other false).2.addFunction file "f"
  let (v, e) := (p.openBody other.defaultMethod).localVar "d" .any
  let (_, e) := e.assignNew v (.newObject (.builtin "Object"))
  let p := (e.close.addExport other ⟨"d", v⟩).addImport file ⟨"x", other, "d"⟩
  let (x, e) := (p.openBody beside).localVar "x" .any
  let (z, e) := e.localVar "z" .any
  let e := (e.assign z x).2.close.openBody main
  if mentioned then
    let (x, e) := e.localVar "x" .any
    let (y, e) := e.localVar "y" .any
    (e.assign y x).2.close
  else e.close

/-- The run that enters the second file and the function. -/
def runImporting (mentioned : Bool) : Except Failure Unit × Analysis × Disk :=
  start (setting (importing mentioned)) default
    (ofGraph (Seed.direct.graph (importing mentioned) [other.defaultMethod, beside]) default) {}

theorem imports_importing (mentioned : Bool) :
    (importing mentioned).Imports beside "x" 2 0 := by
  have hshape : ((importing mentioned).method? beside).map MethodDecl.locals = some [2, 3] ∧
      (importing mentioned).value? 2 = some (.localVar "x" .any beside) ∧
      (importing mentioned).definingStmts 2 = [] ∧
      ((importing mentioned).import? file "x").map (fun i => (i.source, i.importedName)) =
        some (other, "d") ∧
      (importing mentioned).exported? other "d" = some 0 ∧
      (importing mentioned).isLocal 0 = true := by
    revert mentioned
    decide +kernel
  obtain ⟨hlocals, hvalue, hfree, himport, hexport, hlocal⟩ := hshape
  obtain ⟨decl, hdecl, hlocals⟩ := Option.map_eq_some_iff.1 hlocals
  obtain ⟨⟨localName, source, importedName⟩, himport, heq⟩ := Option.map_eq_some_iff.1 himport
  cases heq
  exact {
    inner := by decide +kernel
    declared := ⟨decl, hdecl, by simp [hlocals]⟩
    named := ⟨.any, hvalue⟩
    free := hfree
    ordinary := by decide
    imported := ⟨_, himport, hexport⟩
    isLocal := hlocal }

end Sample

open Sample Builder.Sample

/-- If `main` does not have the name, `x` has the object of `d`. -/
theorem imports_reach_importing :
    Completes (importing false) .direct [other.defaultMethod, beside] default
      (runImporting false).2.1 ∧
    0 ∈ (runImporting false).2.1.pag.ptsOf 2 := by
  obtain ⟨hok, hbuilt, hm, hown, hhere, hd, hobject⟩ : (runImporting false).1.isOk = true ∧
      (0, 2) ∈ (runImporting false).2.1.builder.built ∧
      (runImporting false).2.1.builder.graph.methodOf? 2 = some beside ∧
      (importing false).localNamed? file.defaultMethod "x" = none ∧
      (runImporting false).2.1.pag.find? 0 (.value 2) = some 2 ∧
      1 ∈ (runImporting false).2.1.pag.nodesOf 0 ∧
      0 ∈ (runImporting false).2.1.pag.ptsOf 1 := by
    decide +kernel
  have hcompletes := completes_of_isOk rfl hok
  obtain ⟨here, hfound, hreach⟩ := imports_reach hcompletes hbuilt hm (imports_importing false)
    fun y hy => by cases hown.symm.trans hy
  cases hfound.symm.trans hhere
  exact ⟨hcompletes, hreach 1 hd hobject⟩

/-- If `main` has the name, `x` has nothing, although nothing is assigned to the name there. -/
theorem imports_not_reached :
    Completes (importing true) .direct [other.defaultMethod, beside] default
      (runImporting true).2.1 ∧
    (importing true).Imports beside "x" 2 0 ∧
    (∀ y ∈ ((importing true).method? file.defaultMethod).elim [] MethodDecl.locals,
      (importing true).localName? y = some "x" → (importing true).definingStmts y = []) ∧
    (0, 2) ∈ (runImporting true).2.1.builder.built ∧
    (runImporting true).2.1.builder.graph.methodOf? 2 = some beside ∧
    (runImporting true).2.1.pag.find? 0 (.value 2) = some 2 ∧
    1 ∈ (runImporting true).2.1.pag.nodesOf 0 ∧ 0 ∈ (runImporting true).2.1.pag.ptsOf 1 ∧
    0 ∉ (runImporting true).2.1.pag.ptsOf 2 := by
  have hok : (runImporting true).1.isOk = true := by decide +kernel
  exact ⟨completes_of_isOk rfl hok, imports_importing true, by decide +kernel⟩

end Analysis

end PointsTo
