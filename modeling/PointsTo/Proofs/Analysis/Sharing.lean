import PointsTo.Proofs.Analysis.Singletons
import PointsTo.Proofs.Repetition.Runs

/-!
# When methods are said to share what they return

Whatever a builder is used for, be it requests, summaries or turns of an analysis, and whatever
comes of it: an answer that it has given stays, and answers that it gives are right
(`Builder.Interactions.keepsAnswers`). So a builder says of a method that it shares what it returns
exactly if the method does, and says so from then on (`Builder.singletons_exact`).

There are two exceptions (`Builder.singletons_missed`). A new object that is put in a field of the
global object straight away is not seen. And if it is asked of an id before the call graph has it,
the answer is that it shares nothing, and it stays so when the id gets a method.
-/

namespace PointsTo

open Builder (KeepsAnswers KeepsLinked)

variable {s : Setting} {b b' : Builder} {f : FuncId} {cid : ContextId}

/-! ## Answers that stay right -/

namespace Build

theorem instantiate_keepsAnswers (hs : s.KeepsLinks) :
    GuaranteesOn .all (KeepsAnswers s.program) (instantiate s f cid) := by
  refine .of_spec (Q := fun _ _ _ => True) fun b => ?_
  unfold instantiate
  refine .get_bind ?_
  split
  · refine .modify_bind (.of_same id rfl rfl) ?_
    refine ((layOutTaken_linkSpec hs).trySpec.weaken fun _ h => ?_).mono fun _ _ _ _ => trivial
    exact h.toKeepsAnswers
  · exact .pure trivial

theorem drain_keepsAnswers (hs : s.KeepsLinks) (n : Nat) :
    GuaranteesOn .all (KeepsAnswers s.program) (drain s n) := by
  induction n with
  | zero =>
    unfold drain
    refine .bind .get fun b => ?_
    split
    · exact .throw
    · exact .pure
  | succ n ih =>
    unfold drain
    refine .bind .get fun b => ?_
    split
    · exact .pure
    · refine .bind (.modify fun b => .of_same id rfl rfl) fun _ => ?_
      exact .bind (instantiate_keepsAnswers hs) fun _ => ih

end Build

/-- Answers stay right while methods are laid out, even if that fails. -/
theorem Setting.KeepsLinks.queueKeepsAnswers (hs : s.KeepsLinks) :
    s.QueueGuarantees .all (KeepsAnswers s.program) where
  keepsLinked h := h.toKeepsAnswers
  instantiate := Build.instantiate_keepsAnswers hs
  drain := Build.drain_keepsAnswers hs

theorem Setting.KeepsLinks.analysisKeepsAnswers (hs : s.KeepsLinks) :
    s.AnalysisGuarantees .all (KeepsAnswers s.program) :=
  Analysis.analysisGuarantees_of_queue hs hs.queueKeepsAnswers fun _ _ _ _ _ _ =>
    .of_same id rfl rfl

namespace Builder

/-- One thing that is done with a builder, whatever comes of it. -/
inductive Interaction (s : Setting) : Builder → Builder → Prop where
  | request {α : Type} {m : TryBuild α} (h : Build.Request s m) (b : Builder) :
    Interaction s b (m.run.run b).2
  | summarize (f : FuncId) (b : Builder) :
      Interaction s b ((Build.summarize s.program f).run.run b).2
  | ask (f : FuncId) (b : Builder) : Interaction s b ((Build.isSingleton s.program f).run.run b).2
  | name (m : MethodSig) (missing : FuncKind) (b : Builder) :
    Interaction s b ((Build.funcOf s.program m missing).run b).2
  | unhandled (m : MethodSig) (b : Builder) : Interaction s b ((Build.addUnhandled m).run b).2
  /-- The user puts more in the call graph. Ids keep their methods. -/
  | graph {b : Builder} (graph : CallGraph)
    (method : ∀ {f m}, b.graph.methodOf? f = some m → graph.methodOf? f = some m) :
    Interaction s b { b with graph }
  | turn {a a' : Analysis} (h : Analysis.Turn s a a') : Interaction s a.builder a'.builder

/-- Any number of them. -/
def Interactions (s : Setting) : Builder → Builder → Prop :=
  Relation.ReflTransGen (Interaction s)

theorem Interaction.keepsAnswers (hs : s.IsStandard) (h : Interaction s b b') :
    KeepsAnswers s.program b b' := by
  have hmodels : s.models ⊆ LibraryModel.standard := by
    rw [show s.models = LibraryModel.standard from hs]
    exact List.Subset.refl _
  have hleads : s.KeepsLinks := Build.keepsLinks_of_subset hmodels s.program
  cases h with
  | request h => exact h.guarantees hmodels hleads.queueKeepsAnswers b trivial
  | summarize => exact Build.summarize_linkSpec.trySpec.1.toKeepsAnswers
  | ask => exact Build.isSingleton_linkSpec.trySpec.1.toKeepsAnswers
  | name m missing => exact (Build.funcOf_keepsRequests b).toKeepsAnswers
  | unhandled m => exact (Build.addUnhandled_keepsRequests b).toKeepsAnswers
  | graph graph method => exact .of_same method rfl rfl
  | turn h =>
    exact h.onBuilder hleads.analysisKeepsAnswers fun _ _ =>
      Build.enterEntry_guarantees hleads.queueKeepsAnswers _ trivial

theorem Interactions.keepsAnswers (hs : s.IsStandard) (h : Interactions s b b') :
    KeepsAnswers s.program b b' := by
  induction h with
  | refl => exact refl_of (KeepsAnswers s.program) b
  | tail _ huse ih => exact trans_of (KeepsAnswers s.program) ih (huse.keepsAnswers hs)

/-- A builder that has just been made has no summaries. -/
theorem summariesExact_ofGraph {p : Program} (g : CallGraph) (backing : Backing)
    (sensitivity : Sensitivity) (k : Nat) : (ofGraph g backing sensitivity k).SummariesExact p :=
  nofun

variable {g : CallGraph} {backing : Backing} {sensitivity : Sensitivity} {k : Nat}
  {result : Except Failure Bool} {b'' : Builder}

/-- **Singletons are found exactly.** Let a builder with any call graph have been used for whatever,
and a method not have been asked for until then. Whatever the builder is used for next, when it is
asked whether the method shares what it returns, it fails only if a statement of the program assigns
to no place. Its answer is yes exactly if the method is static, has a body, and one new object of it
gets from where it is put both to a shared slot and to a local that is returned. From then on the
answer is the same, and nothing changes when it is asked for again.

That is so unless the id has got its method in the meantime, and a new object that is put in a field
of the global object straight away does not count. -/
theorem singletons_exact (hs : s.IsStandard)
    (h : Interactions s (ofGraph g backing sensitivity k) b)
    (hnew : b.singletons.lookup f = none) (h' : Interactions s b b')
    (hsame : b'.graph.methodOf? f = b.graph.methodOf? f)
    (hask : (Build.isSingleton s.program f).run.run b' = (result, b'')) :
    (∀ e, result = .error e → s.program.IsMisplaced e) ∧
    ∀ answer, result = .ok answer →
      (answer = true ↔ ∃ m, b.graph.methodOf? f = some m ∧ s.program.SharesReturned m) ∧
      ∀ c, Interactions s b'' c → (Build.isSingleton s.program f).run.run c = (.ok answer, c) := by
  obtain ⟨⟨hgoes, hfails⟩, hends⟩ := Build.isSingleton_linkSpec (p := s.program) (b := b') (f := f)
  have hinformed : b.SummariesExact s.program :=
    (h.keepsAnswers hs).summariesExact (summariesExact_ofGraph g backing sensitivity k)
  have hnotes : KeepsAnswers s.program b b'' := by
    refine trans_of (KeepsAnswers s.program) (h'.keepsAnswers hs) ?_
    have hstep := hgoes.1.toKeepsAnswers
    rw [hask] at hstep
    exact hstep
  refine ⟨fun e he => ?_, fun answer hanswer => ?_⟩
  · subst he
    refine (hfails (congrArg Prod.fst hask)).resolve_left ?_
    rintro rfl
    exact hends (congrArg Prod.fst hask)
  · subst hanswer
    obtain ⟨-, hnoted, hgraph⟩ := hgoes.of_run hask
    obtain ⟨hyes, hno⟩ := hnotes.answered hinformed hnew hnoted
    have hstays : b''.Shares s.program f ↔ b.Shares s.program f :=
      shares_congr (by rw [hgraph, hsame])
    exact ⟨⟨fun htrue => hstays.1 (hyes htrue), hno⟩, fun c hc =>
      Build.run_isSingleton_of_known ((hc.keepsAnswers hs).single hnoted)⟩

namespace Sample

open Program Analysis.Sample

/-- In `take`, which is static: `g = globalThis; x = new Pool; y = x; x = y; g.one = y; z = g.one;
return z`. -/
def cached : Program :=
  let (_, p) := (addFile {} file false).2.addClass file "Pool" none
  let d := (p.addStaticMethod pool "take").2.openBody takeOne
  let (g, d) := d.localVar "g" .any
  let (x, d) := d.localVar "x" (.object pool)
  let (y, d) := d.localVar "y" (.object pool)
  let (z, d) := d.localVar "z" (.object pool)
  let (_, d) := d.assignNew g .globalThis
  let (_, d) := d.assignNew x (.newObject pool)
  let (_, d) := d.assign y x
  let (_, d) := d.assign x y
  let (_, d) := d.storeField g "one" y
  let (_, d) := d.loadField z g "one"
  (d.ret (some z)).2.close

/-- The same method, which has been laid out. -/
def prepared : Builder :=
  ((Build.enterNow (setting cached) 1 0).run.run (empty cached takeOne)).2

/-- In `take`: `g = globalThis; g.one = new Pool; z = g.one; return z`. -/
def put : Program :=
  let (_, p) := (addFile {} file false).2.addClass file "Pool" none
  let d := (p.addStaticMethod pool "take").2.openBody takeOne
  let (g, d) := d.localVar "g" .any
  let (z, d) := d.localVar "z" (.object pool)
  let (_, d) := d.assignNew g .globalThis
  let (slot, d) := d.newValue (d.fieldOf g "one")
  let (_, d) := d.assignNew slot (.newObject pool)
  let (_, d) := d.loadField z g "one"
  (d.ret (some z)).2.close

/-- A builder of `cached` that is asked of the id 0 when the call graph is empty, and where `take`
gets that id then. -/
def askedEarly : FuncId × Builder :=
  (Build.funcOf cached takeOne .real).run
    ((Build.isSingleton cached 0).run.run (ofGraph {} .hash .callSite 1)).2

end Sample

open Sample Analysis.Sample

/-- The method is asked for when it has been laid out. It shares what it returns through the global
object, around a cycle of copies. -/
theorem singletons_exact_cached : Interactions (setting cached) (empty cached takeOne) prepared ∧
    ((Build.isSingleton cached 1).run.run prepared).1 = .ok true ∧
    cached.SharesReturned takeOne ∧
    ∀ c, Interactions (setting cached) ((Build.isSingleton cached 1).run.run prepared).2 c →
      (Build.isSingleton cached 1).run.run c = (.ok true, c) := by
  obtain ⟨hnew, hmethod, hsame, hok⟩ : (empty cached takeOne).singletons.lookup 1 = none ∧
      (empty cached takeOne).graph.methodOf? 1 = some takeOne ∧
      prepared.graph.methodOf? 1 = some takeOne ∧
      ((Build.isSingleton cached 1).run.run prepared).1 = .ok true := by
    decide +kernel
  have huses : Interactions (setting cached) (empty cached takeOne) prepared :=
    .single (.request (.enter 1 0) _)
  obtain ⟨-, hanswer⟩ := singletons_exact (s := setting cached) rfl .refl hnew huses
    (hsame.trans hmethod.symm) rfl
  obtain ⟨hiff, hagain⟩ := hanswer true hok
  obtain ⟨m, hm, hshares⟩ := hiff.1 rfl
  cases hmethod.symm.trans hm
  exact ⟨huses, hok, hshares, hagain⟩

/-- A new object that is put in a field of the global object straight away is missed. And a method
that was asked for before the call graph had it is said to share nothing from then on. -/
theorem singletons_missed :
    (∃ a ∈ put.allocations takeOne, put.SharesFrom takeOne a) ∧
    (put.method? takeOne).any (fun decl => decl.isStatic && decl.hasBody) = true ∧
    (empty put takeOne).graph.methodOf? 1 = some takeOne ∧
    ((Build.isSingleton put 1).run.run (empty put takeOne)).1 = .ok false ∧
    askedEarly.1 = 0 ∧ askedEarly.2.graph.methodOf? 0 = some takeOne ∧
    cached.SharesReturned takeOne ∧
    ((Build.isSingleton cached 0).run.run askedEarly.2).1 = .ok false := by
  decide +kernel

end Builder

end PointsTo
