import PointsTo.Proofs.Analysis.Closure
import PointsTo.Proofs.Links.Layout
import PointsTo.Proofs.Program.Copies

/-!
# Links are complete

A builder is asked for nodes, for methods and calls, and by models of the library. Whatever succeeds
keeps it complete. So wherever it has got to by requests that succeed (`Builder.Reachable`), what is
captured and what is free has the edges of all nodes of the local that it stands for, whichever was
there first (`links_complete`).

Which local a name stands for, and what an import is, has three limits (`links_incomplete`). Of two
locals that an environment captures under one name, the first counts. An import of a file from
itself goes without an export. The node of an export is the one in the root context.
-/

namespace PointsTo

namespace Program

/-- The file that a local is in. -/
def fileOf? (p : Program) (v : ValueId) : Option FileSig :=
  match p.value? v with
  | some (.localVar _ _ m) => some m.owner.file
  | _ => none

/-- The import that has the name of a local, in the file that the local is in. -/
def importOf? (p : Program) (v : ValueId) : Option Import :=
  match p.value? v with
  | some (.localVar name _ m) => p.import? m.owner.file name
  | _ => none

variable {p : Program} {v d : ValueId}

theorem isLocal_of_resolveFree? (h : p.resolveFree? v = some d) : p.isLocal v = true := by
  unfold resolveFree? at h
  split at h
  · rename_i name ty m hv
    exact isLocal_iff.2 ⟨name, ty, m, hv⟩
  · cases h

/-- How a free local is listed that stands for another local. -/
theorem exists_freeLocal? (h : p.resolveFree? v = some d) (hd : p.isLocal d = true) :
    ∃ x, Summarize.freeLocal? p v = some x ∧ x.name = v ∧ x.decl = d ∧
      (p.fileOf? d = p.fileOf? v → x.exported = none) ∧
      (p.fileOf? d ≠ p.fileOf? v → ∀ i, p.importOf? v = some i →
        x.exported = some (i.source, i.importedName)) := by
  obtain ⟨name, ty, m, hv⟩ := isLocal_iff.1 (isLocal_of_resolveFree? h)
  obtain ⟨name', ty', m', hdecl⟩ := isLocal_iff.1 hd
  simp only [Summarize.freeLocal?, h, Option.bind_eq_bind, Option.bind_some, hv, hdecl, fileOf?,
    importOf?, Option.some.injEq, exists_eq_left', true_and]
  refine ⟨fun hfile => if_pos hfile, fun hfile i hi => ?_⟩
  rw [if_neg fun heq => hfile (congrArg some heq), hi, Option.map_some]

/-- What stands for another local is a value of its own. -/
theorem entityOf_of_isLocal (h : p.isLocal v = true) : Build.entityOf p v = .value v := by
  obtain ⟨name, ty, m, hv⟩ := isLocal_iff.1 h
  unfold Build.entityOf
  rw [hv]

end Program

open Build

theorem Setting.IsStandard.keepsLinks {s : Setting} (hs : s.IsStandard) : s.KeepsLinks :=
  fun m hm => LibraryModel.standard_keepsLinks s.program m (hs ▸ hm)

namespace Build

/-- What a builder can be asked for. -/
inductive Request (s : Setting) : {α : Type} → TryBuild α → Prop where
  | instantiate (f : FuncId) (cid : ContextId) : Request s (instantiate s f cid)
  | enter (f : FuncId) (cid : ContextId) : Request s (enterNow s f cid)
  | entry (f : FuncId) : Request s (enterEntry s f)
  | connect (c : CallBinding) : Request s (connect s.program (enterNow s) c)
  | node (cid : ContextId) (e : Entity) : Request s (nodeOf s.program cid e : Build NodeId)
  | value (cid : ContextId) (v : ValueId) : Request s (valueNode s.program cid v : Build NodeId)
  | nodeWithKind (cid : ContextId) (e : Entity) (kind : NodeKind) :
    Request s (nodeWithKind s.program cid e kind : Build NodeId)
  | field (obj : NodeId) (key : FieldKey) (cloneOf : Option NodeId) :
    Request s (fieldNode obj key cloneOf : Build NodeId)
  | args (cid : ContextId) (args : List ValueId) (index : Nat) :
    Request s (argNodes s.program cid args index : Build (List (NodeId × Nat)))
  | edge (kind : EdgeKind) (src dst : NodeId) : Request s (addEdge kind src dst : Build Bool)
  | site (n : NodeId) (site : SiteRef) : Request s (addSite n site : Build Bool)
  | onCall (c : ModelCall) {ms : List LibraryModel} (h : ms ⊆ LibraryModel.standard) :
    Request s (LibraryModel.runOnCall s.program c ms)
  | onObject (c : ModelCall) (role : SiteRole) (obj : NodeId) {ms : List LibraryModel}
    (h : ms ⊆ LibraryModel.standard) :
    Request s (LibraryModel.runOnObject s.program (enterNow s) c role obj ms)
  | models (c : ModelCall) (role : SiteRole) (obj : NodeId) : Request s (runModels s c role obj)

variable {s : Setting}

theorem keepsLinks_of_subset {ms : List LibraryModel} (h : ms ⊆ LibraryModel.standard)
    (p : Program) : ∀ m ∈ ms, m.KeepsLinks p :=
  fun m hm => LibraryModel.standard_keepsLinks p m (h hm)

/-- What single layouts and the queue guarantee, every request guarantees. -/
theorem Request.guarantees {o : Outcomes} {R : Builder → Builder → Prop} [IsPreorder Builder R]
    (hs : s.models ⊆ LibraryModel.standard) (hr : s.QueueGuarantees o R) {α : Type} {m : TryBuild α}
    (h : Request s m) : GuaranteesOn o R m := by
  have henter := enterNow_enterGuarantees hr
  cases h with
  | instantiate => exact hr.instantiate
  | enter => exact henter.enter
  | entry => exact enterEntry_guarantees hr
  | connect => exact connect_guarantees henter
  | node => exact henter.lift nodeOf_keepsRequests
  | value => exact henter.lift valueNode_keepsRequests
  | nodeWithKind => exact henter.lift nodeWithKind_keepsRequests
  | field => exact henter.lift fieldNode_keepsRequests
  | args args index => exact henter.lift (argNodes_keepsRequests _ _)
  | edge => exact henter.lift addEdge_keepsRequests
  | site => exact henter.lift addSite_keepsRequests
  | onCall c hms =>
    exact .of_spec fun b =>
      (LibraryModel.runOnCall_linkSpec (keepsLinks_of_subset hms s.program)).trySpec.weaken
        fun _ => henter.keepsRequests
  | onObject c role obj hms =>
    exact LibraryModel.runOnObject_guarantees (keepsLinks_of_subset hms s.program) henter
  | models => exact runModels_guarantees (keepsLinks_of_subset hs s.program) hr

end Build

namespace Builder

/-- The builder has got here from an empty one, by requests that succeed. -/
inductive Reachable (s : Setting) : Builder → Prop where
  | start (g : CallGraph) (backing : Backing) (sensitivity : Sensitivity) (k : Nat) :
    Reachable s (ofGraph g backing sensitivity k)
  | step {b b' : Builder} {α : Type} {m : TryBuild α} {x : α} (hb : Reachable s b)
    (hm : Request s m) (h : m.run.run b = (.ok x, b')) : Reachable s b'

variable {s : Setting} {p : Program} {b : Builder}

theorem Reachable.complete (hs : s.models ⊆ LibraryModel.standard) (h : b.Reachable s) :
    b.Complete s.program := by
  have hleads : s.KeepsLinks := keepsLinks_of_subset hs s.program
  induction h with
  | start g backing sensitivity k => exact ⟨linked_ofGraph s.program g backing sensitivity k, nofun⟩
  | step _ hm h ih => exact (hm.guarantees hs hleads.queueKeepsComplete).tryGuarantees h ih

/-- All nodes of a value have the edge that a link from it gives. -/
theorem Linked.edge (h : b.Linked p) {v : ValueId} {kind : EdgeKind} {target : NodeId}
    (hl : (v, kind, target) ∈ b.links) : ∀ n ∈ b.pag.nodesOf v, ⟨kind, n, target⟩ ∈ b.pag.edges :=
  fun n hn => h.linkEdges n _ hl (Pag.mem_nodesOf.1 hn)

/-- What stands for a captured variable has the edges of all nodes of the variable. -/
theorem Linked.captured (h : b.Linked p) {v env l : ValueId} {name : String}
    (hv : p.value? v = some (.captured env name)) (hl : p.captured? env name = some l) :
    ∀ r ∈ b.pag.nodesOf v, ∀ n ∈ b.pag.nodesOf l, ⟨.interprocedural, n, r⟩ ∈ b.pag.edges :=
  fun r hr => h.edge (h.captureLinks r (Pag.mem_nodesOf.1 hr) hv hl)

/-- A free local of a method that is laid out is linked. -/
theorem Complete.freeLinked (h : b.Complete p) {cid : ContextId} {f : FuncId} {m : MethodSig}
    {decl : MethodDecl} {v : ValueId} {x : FreeLocal} (hf : (cid, f) ∈ b.built)
    (hm : b.graph.methodOf? f = some m) (hdecl : p.method? m = some decl) (hv : v ∈ decl.locals)
    (hx : Summarize.freeLocal? p v = some x) : b.FreeLinked p cid x := by
  obtain ⟨summary, hsummary, hfree⟩ := h.freeLocals hf
  obtain ⟨m', hm', hlists⟩ := h.linked.free (mem_of_summary? hsummary)
  rw [hm] at hm'
  cases hm'
  exact hfree x (hlists decl hdecl v hv x hx)

/-- Wherever the builder has got to, whatever was there first and however many contexts there are:
a captured variable has the edges of all nodes of the variable. So has a free local of a method that
is laid out, in every context of that, from the nodes of a local of its file. From those of a local
of another file it has them through the one shared node of the export that it imports. -/
theorem links_complete (hs : s.models ⊆ LibraryModel.standard) (h : b.Reachable s) :
    (∀ v env name l, s.program.value? v = some (.captured env name) →
      s.program.captured? env name = some l →
      ∀ r ∈ b.pag.nodesOf v, ∀ n ∈ b.pag.nodesOf l, ⟨.interprocedural, n, r⟩ ∈ b.pag.edges) ∧
    ∀ cid f m decl x d, (cid, f) ∈ b.built → b.graph.methodOf? f = some m →
      s.program.method? m = some decl → x ∈ decl.locals → s.program.resolveFree? x = some d →
      s.program.isLocal d = true →
      ∃ here, b.pag.find? cid (.value x) = some here ∧
        (s.program.fileOf? d = s.program.fileOf? x →
          ∀ n ∈ b.pag.nodesOf d, ⟨.interprocedural, n, here⟩ ∈ b.pag.edges) ∧
        (s.program.fileOf? d ≠ s.program.fileOf? x → ∀ i, s.program.importOf? x = some i →
          ∃ shared, b.pag.find? Context.root (.exported i.source i.importedName) = some shared ∧
            (∀ n node, b.pag.node? n = some node → node.cid = Context.root →
              node.entity = .exported i.source i.importedName → n = shared) ∧
            (∀ n ∈ b.pag.nodesOf d, ⟨.copy, n, shared⟩ ∈ b.pag.edges) ∧
            ⟨.interprocedural, shared, here⟩ ∈ b.pag.edges) := by
  have hb := h.complete hs
  refine ⟨fun v env name l => hb.linked.captured, fun cid f m decl x d hf hm hdecl hx hres hd => ?_⟩
  obtain ⟨y, hy, rfl, rfl, hsame, hother⟩ := Program.exists_freeLocal? hres hd
  obtain ⟨here, hhere, hlink⟩ := hb.freeLinked hf hm hdecl hx hy
  rw [Program.entityOf_of_isLocal (Program.isLocal_of_resolveFree? hres)] at hhere
  refine ⟨here, hhere, fun hfile => ?_, fun hfile i hi => ?_⟩
  · rw [hsame hfile] at hlink
    exact hb.linked.edge hlink
  · rw [hother hfile i hi] at hlink
    obtain ⟨shared, hshared, hcopy, hedge⟩ := hlink
    refine ⟨shared, hshared, fun n node hn hcid he => ?_, hb.linked.edge hcopy, hedge⟩
    obtain ⟨⟨node', hnode', hcid', he'⟩, -⟩ := Pag.find?_eq_some_iff.1 hshared
    exact hb.linked.unique hn hnode' (hcid.trans hcid'.symm) (he.trans he'.symm)

/-! ## Samples -/

namespace Sample

open Analysis.Sample Program

/-- A second file. -/
def other : FileSig := { project := "p", name := "b.ts" }

/-- A function in it. -/
def importer : MethodSig := ⟨other.defaultClass, "g"⟩

/-- `y = new Object` in the first file and `z = new Object` in the second, where `x` is imported
from `y`. The function there has `x`, `z` and `w = env.y`. -/
def imported : Program :=
  let (_, p) := ((addFile {} file false).2.addFile other false).2.addFunction other "g"
  let (y, d) := (p.openBody main).localVar "y" .any
  let (_, d) := d.assignNew y (.newObject (.builtin "Object"))
  let p := (d.close.addExport file ⟨"y", y⟩).addImport other ⟨"x", file, "y"⟩
  let (z, d) := (p.openBody other.defaultMethod).localVar "z" .any
  let (_, d) := d.assignNew z (.newObject (.builtin "Object"))
  let (_, d) := (d.close.openBody importer).localVar "x" .any
  let (_, d) := d.localVar "z" .any
  let (env, d) := d.closureEnv "env" importer [y]
  let (w, d) := d.localVar "w" .any
  (d.assignNew w (.captured env "y")).2.close

def setting (p : Program) : Setting :=
  { program := p, models := LibraryModel.standard, fuel := 20 }

/-- The builder of a sample before any request. -/
def empty (p : Program) (entry : MethodSig) : Builder :=
  ofGraph (Seed.direct.graph p [entry]) .hash .callSite 1

/-- A node of `y` is there before the function is laid out. -/
def early : Builder :=
  ((valueNode imported 1 0).run (empty imported importer)).2

def laid : Builder :=
  ((enterEntry (setting imported) 2).run.run early).2

/-- Another one comes later. -/
def late : Builder :=
  ((valueNode imported 2 0).run laid).2

end Sample

open Sample Analysis.Sample

theorem reachable_late : late.Reachable (setting imported) := by
  have hearly : early.Reachable (setting imported) :=
    .step (.start _ _ _ _) (.value 1 0) rfl
  have hok : ((enterEntry (setting imported) 2).run.run early).1 = .ok 0 := by decide +kernel
  have hlaid : laid.Reachable (setting imported) := .step hearly (.entry 2) (Prod.ext hok rfl)
  exact .step hlaid (.value 2 0) rfl

/-- All three nodes of `y` have their edges, to what the environment captures and to the node of the
export. That has its edge to `x`, and the node of the second file's own `z` has one to the free
`z`. -/
theorem links_complete_imported :
    (setting imported).models ⊆ LibraryModel.standard ∧ late.Reachable (setting imported) ∧
    late.pag.nodesOf 0 = [0, 7, 10] ∧
    (∀ n ∈ late.pag.nodesOf 0, ⟨.interprocedural, n, 1⟩ ∈ late.pag.edges ∧
      ⟨.copy, n, 4⟩ ∈ late.pag.edges) ∧
    ⟨.interprocedural, 4, 3⟩ ∈ late.pag.edges ∧ ⟨.interprocedural, 9, 5⟩ ∈ late.pag.edges := by
  have hsubset : (setting imported).models ⊆ LibraryModel.standard := List.Subset.refl _
  obtain ⟨hcaptured, hfree⟩ := links_complete hsubset reachable_late
  have hdecl : (imported.method? importer).map MethodDecl.locals = some [4, 5, 6, 7] := by
    decide +kernel
  obtain ⟨decl, hdecl, hlocals⟩ := Option.map_eq_some_iff.1 hdecl
  have hm : late.graph.methodOf? 2 = some importer := by decide +kernel
  -- The free local `z` is of the same file, and `x` is imported.
  obtain ⟨here, hhere, hown, -⟩ := hfree 0 2 importer decl 5 2 (by decide +kernel) hm hdecl
    (by simp [hlocals]) (by decide +kernel) (by decide +kernel)
  obtain ⟨here', hhere', -, himported⟩ := hfree 0 2 importer decl 4 0 (by decide +kernel) hm hdecl
    (by simp [hlocals]) (by decide +kernel) (by decide +kernel)
  have hfive : late.pag.find? 0 (.value 5) = some 5 := by decide +kernel
  have hthree : late.pag.find? 0 (.value 4) = some 3 := by decide +kernel
  have hfour : late.pag.find? Context.root (.exported file "y") = some 4 := by decide +kernel
  cases hhere.symm.trans hfive
  cases hhere'.symm.trans hthree
  have hi : (imported.importOf? 4).map (fun i => (i.source, i.importedName)) =
      some (file, "y") := by decide +kernel
  obtain ⟨⟨name, source, importedName⟩, hi, heq⟩ := Option.map_eq_some_iff.1 hi
  cases heq
  obtain ⟨shared, hshared, -, hcopies, hedge⟩ := himported (by decide +kernel) _ hi
  cases hshared.symm.trans hfour
  refine ⟨hsubset, reachable_late, by decide +kernel, fun n hn => ⟨?_, hcopies n hn⟩, hedge, ?_⟩
  · exact hcaptured 8 6 "y" 0 (by decide +kernel) (by decide +kernel) 1 (by decide +kernel) n hn
  · exact hown (by decide +kernel) 9 (by decide +kernel)

namespace Sample

open Program

/-- A function beside `main`. -/
def beside : MethodSig := ⟨file.defaultClass, "f"⟩

/-- `main` and the function have a local `y` each, and an environment captures both. The function
has `w = env.y`. -/
def shadowed : Program :=
  let (_, p) := (addFile {} file false).2.addFunction file "f"
  let (y, d) := (p.openBody main).localVar "y" .any
  let (y', d) := (d.close.openBody beside).localVar "y" .any
  let (env, d) := d.closureEnv "env" beside [y, y']
  let (w, d) := d.localVar "w" .any
  (d.assignNew w (.captured env "y")).2.close

/-- `y = new Object`, and `x` is imported from `y` in the same file. A function has `x`. -/
def circular : Program :=
  let (_, p) := (addFile {} file false).2.addFunction file "f"
  let (y, d) := (p.openBody main).localVar "y" .any
  let (_, d) := d.assignNew y (.newObject (.builtin "Object"))
  let p := (d.close.addExport file ⟨"y", y⟩).addImport file ⟨"x", file, "y"⟩
  ((p.openBody beside).localVar "x" .any).2.close

/-- Nodes of the second `y` and of `env.y`. -/
def both : Builder :=
  ((valueNode shadowed 0 4).run ((valueNode shadowed 0 1).run (empty shadowed beside)).2).2

/-- The function is laid out. -/
def turned : Builder :=
  ((enterEntry (setting circular) 1).run.run (empty circular beside)).2

/-- A node of the export in another context. -/
def doubled : Builder :=
  ((nodeWithKind imported 1 (.exported file "y") .exported).run late).2

end Sample

/-- Of two locals that an environment captures under one name only the first is meant. An import
from the file itself goes without a node of the export. A node of the export that is made in a
context of its own has no edges. -/
theorem links_incomplete :
    (both.Reachable (setting shadowed) ∧ shadowed.value? 4 = some (.captured 2 "y") ∧
      shadowed.tyOf 2 = .lexicalEnv beside [0, 1] ∧ shadowed.localName? 1 = some "y" ∧
      1 ∈ both.pag.nodesOf 4 ∧ 0 ∈ both.pag.nodesOf 1 ∧
      ⟨.interprocedural, 0, 1⟩ ∉ both.pag.edges) ∧
    (turned.Reachable (setting circular) ∧ (0, 1) ∈ turned.built ∧
      turned.graph.methodOf? 1 = some beside ∧
      (circular.method? beside).map MethodDecl.locals = some [2] ∧
      circular.resolveFree? 2 = some 0 ∧ (circular.importOf? 2).map Import.source = some file ∧
      turned.pag.nodesOf 0 ≠ [] ∧
      ∀ node ∈ turned.pag.nodes, node.entity ≠ .exported file "y") ∧
    (doubled.Reachable (setting imported) ∧ 7 ∈ doubled.pag.nodesOf 0 ∧
      doubled.pag.find? 1 (.exported file "y") = some 11 ∧ ⟨.copy, 7, 11⟩ ∉ doubled.pag.edges) := by
  have hboth : both.Reachable (setting shadowed) :=
    .step (.step (.start _ _ _ _) (.value 0 1) rfl) (.value 0 4) rfl
  have hok : ((enterEntry (setting circular) 1).run.run (empty circular beside)).1 = .ok 0 := by
    decide +kernel
  have hturned : turned.Reachable (setting circular) :=
    .step (.start _ _ _ _) (.entry 1) (Prod.ext hok rfl)
  have hdoubled : doubled.Reachable (setting imported) :=
    .step reachable_late (.nodeWithKind 1 _ _) rfl
  refine ⟨⟨hboth, ?_⟩, ⟨hturned, ?_⟩, hdoubled, ?_⟩
  · decide +kernel
  · decide +kernel
  · decide +kernel

end Builder

end PointsTo
