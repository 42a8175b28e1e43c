import Mathlib.Data.Finset.Card
import PointsTo.Proofs.Analysis.Closure
import PointsTo.Proofs.Analysis.Driving
import PointsTo.Proofs.Lockstep.Runs

/-!
# Binding functions

`y = f.bind(..)` makes a function of every function at `f`, and assigns it to `y`. When an analysis
of the whole program completes, this has been done for all of them (`Finished.binds`). In
`x = x.bind(..)` what is made can be bound once more, and is a different function each time. So an
analysis that has a function at `x` does not complete (`Finished.not_bindsAgain`), whatever the
fuel.
-/

namespace PointsTo

open Builder (Actions)
open Build Library.Function

variable {s : Setting} {p : Program} {b : Builder}

/-! ## Asking the models -/

/-- A function object that reaches a call of `bind`: the model of stores passes, and that of
functions takes the call. -/
theorem LibraryModel.runOnObject_binds {enter : Enter} (henter : enter.IsStep p) (hb : b.Sound p)
    {c : ModelCall} {role : SiteRole} {obj : NodeId} (hrole : ∀ index, role ≠ .arg index)
    (hfn : (b.pag.function? obj).isSome = true) (hname : c.invoke.method.name = "bind") :
    TrySpec (Builder.Steps p) (runOnObject p enter c role obj standard) b fun taken b' =>
      taken = true ∧ ∀ v, c.result = some v → IsBound p b'.pag c.callerCid c.stmt obj v := by
  refine .bind (Library.Storage.onObject_function hrole hfn) ?_
  rintro _ _ - ⟨rfl, rfl⟩
  refine .bind (onObject_spec henter hb) fun taken b₁ _ htaken => ?_
  obtain ⟨rfl, hbound⟩ := htaken hrole hfn hname
  exact .pure ⟨rfl, hbound⟩

namespace Build

theorem runModels_binds (hs : s.IsStandard) (hb : b.Sound s.program)
    (hlaid : b.AllCallsWait s.program)
    {c : ModelCall} {role : SiteRole} {obj : NodeId} (hrole : ∀ index, role ≠ .arg index)
    (hfn : (b.pag.function? obj).isSome = true) (hname : c.invoke.method.name = "bind") :
    TrySpec (Builder.LayoutSteps s.program) (runModels s c role obj) b fun taken b' =>
      taken = true ∧
      ∀ v, c.result = some v → IsBound s.program b'.pag c.callerCid c.stmt obj v := by
  have hrun := LibraryModel.runOnObject_binds enqueue_isStep hb hrole hfn hname
  unfold runModels
  rw [show s.models = LibraryModel.standard from hs]
  refine .bind (layoutSteps_stepInvariant.lift hrun hlaid) ?_
  rintro _ b₁ h₁ ⟨⟨rfl, hbound⟩, hlaid₁⟩
  refine .bind (drain_spec hs.sound (h₁.sound hb) hlaid₁ s.fuel) fun _ b₂ h₂ _ => .pure ⟨rfl, ?_⟩
  exact fun v hv => (hbound v hv).mono h₂.grows.pag

end Build

namespace Analysis

variable {a : Analysis} {scale : Scale} {n o : NodeId} {site : SiteRef}

/-! ## Calls of `bind` -/

/-- The statement is `v = f.bind(..)`. -/
structure IsBind (p : Program) (stmt : StmtId) (v : ValueId) : Prop where
  invoke : ∃ i, p.invokeOf? stmt = some i ∧ i.kind = .member ∧ i.method.name = "bind"
  result : (p.stmt? stmt).bind Stmt.defValue? = some v

theorem receiverCall_binds (hs : s.IsStandard) (hb : a.builder.Sound s.program)
    (hlaid : a.builder.AllCallsWait s.program) (c : ModelCall) (role : SiteRole)
    (hrole : ∀ index, role ≠ .arg index) (hk : c.invoke.kind = .member)
    (hname : c.invoke.method.name = "bind") (hfn : (a.pag.function? o).isSome = true) :
    TrySpec (ChangesOnlyBuilder s.program) (receiverCall s c n role o) a fun _ a' =>
      ∀ v, c.result = some v → IsBound s.program a'.pag c.callerCid c.stmt o v := by
  have hleave : TrySpec (ChangesOnlyBuilder s.program) (leaveToModels s c role o) a fun taken a' =>
      taken = true ∧ ∀ v, c.result = some v →
        IsBound s.program a'.pag c.callerCid c.stmt o v := by
    refine .bind (build_spec (runModels_binds hs hb hlaid hrole hfn hname)) ?_
    rintro _ a₁ - ⟨rfl, hbound⟩
    exact .pure ⟨rfl, hbound⟩
  refine .get_bind ?_
  rw [resolve?_function_eq_none (by simp [hk]) hfn]
  refine .bind hleave ?_
  rintro _ a₁ - ⟨rfl, hbound⟩
  exact .pure hbound

theorem processSite_binds (hs : s.IsStandard) (hb : a.builder.Sound s.program)
    (hlaid : a.builder.AllCallsWait s.program) (hrole : ∀ index, site.role ≠ .arg index)
    {v : ValueId} (hbind : IsBind s.program site.stmt v) (hfn : (a.pag.function? o).isSome = true) :
    TrySpec (ChangesOnlyBuilder s.program) (processSite s n site o) a fun _ a' =>
      ∃ node, a.pag.node? n = some node ∧ IsBound s.program a'.pag node.cid site.stmt o v := by
  obtain ⟨⟨i, hi, hkind, hname⟩, hresult⟩ := hbind
  obtain ⟨st, hst, hv⟩ := Option.bind_eq_some_iff.1 hresult
  unfold processSite
  dsimp only
  rw [hi, hst]
  refine .get_bind ?_
  cases hnode : a.pag.node? n with
  | none => exact .throw
  | some node =>
    refine .bind (build_steps (.lift funcOf_spec) hlaid) fun caller a₁ h₁ hcaller => ?_
    have hb₁ := h₁.layoutSteps.sound hb
    have hg : a.pag.Extends a₁.pag := h₁.layoutSteps.grows.pag
    have hfn₁ : (a₁.pag.function? o).isSome = true := by
      rw [Pag.function?_congr hg (Pag.lt_of_function? hfn)]
      exact hfn
    refine .get_bind ?_
    let c : ModelCall := {
      stmt := site.stmt, caller, callerCid := node.cid
      site := siteAt a₁.builder.graph site.stmt
      callee := i.method, invoke := i, result := st.defValue? }
    have hcall : ∀ role, (∀ index, role ≠ .arg index) → TrySpec (ChangesOnlyBuilder s.program)
        (receiverCall s c n role o) a₁ fun _ a' =>
          ∃ node', some node = some node' ∧ IsBound s.program a'.pag node'.cid site.stmt o v := by
      intro role hrole
      refine (receiverCall_binds hs hb₁ hcaller.2 c role hrole hkind hname hfn₁).mono ?_
      exact fun _ _ _ hbound => ⟨node, rfl, hbound v hv⟩
    generalize site.role = role at hrole
    cases role with
    | arg index => exact absurd rfl (hrole index)
    | receiver => exact hcall .receiver hrole
    | unknown => exact hcall .unknown hrole

/-- A call of `bind` that was looked at for a function has made its function. -/
theorem Looked.bound (h : Looked p b n site o) (hrole : ∀ index, site.role ≠ .arg index)
    {v : ValueId} (hbind : IsBind p site.stmt v) {node : Node} (hnode : b.pag.node? n = some node)
    (hfn : (b.pag.function? o).isSome = true) : IsBound p b.pag node.cid site.stmt o v := by
  obtain ⟨s, a, a', rfl, hs, hb, hlaid, ho, hrun, hpag, -, -⟩ := h.run
  have hbuild := ((processSite_calleeRecorded hs.sound hb hlaid ho).of_run hrun).1
  have hg : a.pag.Extends b.pag := hbuild.layoutSteps.grows.pag.trans hpag
  rw [Pag.function?_congr hg ho] at hfn
  obtain ⟨-, old, hold, hbound⟩ := (processSite_binds hs hb hlaid hrole hbind hfn).of_run hrun
  obtain ⟨node', hnode', hgrow⟩ := hg.node hold
  cases hnode.symm.trans hnode'
  rw [hgrow.cid]
  exact hbound.mono hpag

/-! ## Binding again and again -/

/-- When the analysis is finished, every function at a call of `bind` is bound. -/
theorem Finished.binds (h : Finished p .wholeProgram a) {v : ValueId} {node : Node}
    (hbind : IsBind p site.stmt v) (hrole : ∀ index, site.role ≠ .arg index)
    (hsite : site ∈ a.pag.sitesOf n) (hnode : a.pag.node? n = some node)
    (ho : o ∈ a.pag.ptsOf n) (hfn : (a.pag.function? o).isSome = true) :
    IsBound p a.pag node.cid site.stmt o v :=
  (h.looked hsite ho).bound hrole hbind hnode hfn

/-- If a function is bound and assigned to where it was read from, every function there was made by
the same statement. -/
theorem Finished.bindsAgain (h : Finished p .wholeProgram a) {v : ValueId} {node : Node}
    (hbind : IsBind p site.stmt v) (hrole : ∀ index, site.role ≠ .arg index)
    (hsite : site ∈ a.pag.sitesOf n) (hnode : a.pag.node? n = some node)
    (hagain : nodeIn? a.pag node.cid (entityOf p v) = some n) (ho : o ∈ a.pag.ptsOf n)
    (hfn : (a.pag.function? o).isSome = true) :
    ∃ target, (a.pag.node? o).map Node.entity = some (.boundFunction site.stmt target) := by
  classical
  let functions := (a.pag.ptsOf n).toFinset.filter fun o => (a.pag.function? o).isSome = true
  -- Every function there has its own bound function, which is there too.
  have hbound : ∀ o ∈ functions, ∃ m ∈ functions,
      (a.pag.node? m).map Node.entity = some (.boundFunction site.stmt o) := by
    intro o ho
    obtain ⟨ho, hfn⟩ := Finset.mem_filter.1 ho
    rw [List.mem_toFinset] at ho
    obtain ⟨m, dst, hm, hdst, he⟩ := h.binds hbind hrole hsite hnode ho hfn
    cases hagain.symm.trans hdst
    obtain ⟨⟨made, hmade, -, hentity⟩, -⟩ := Pag.find?_eq_some_iff.1 hm
    obtain ⟨fn, hkind⟩ := (h.valid.grounded.sound.fits hmade).bound hentity
    refine ⟨m, Finset.mem_filter.2 ⟨List.mem_toFinset.2 (h.address he), ?_⟩, ?_⟩
    · simp [Pag.function?, hmade, hkind, NodeKind.function?]
    · rw [hmade, Option.map_some, hentity]
  choose! next hnext hentity using hbound
  have hinj : Set.InjOn next functions := by
    intro o ho o' ho' heq
    have he := hentity o ho
    rw [heq, hentity o' ho'] at he
    cases he
    rfl
  -- There are finitely many, so each of them is the bound function of another one.
  obtain ⟨target, htarget, rfl⟩ := Finset.surjOn_of_injOn_of_card_le next hnext hinj le_rfl
    (Finset.mem_filter.2 ⟨List.mem_toFinset.2 ho, hfn⟩)
  exact ⟨target, hentity target htarget⟩

/-- A function `o` that no `bind` has made is assigned to the variable of `n`, and the statement
binds what is there and assigns it to the same variable. -/
structure BindsAgain (p : Program) (g : Pag) (stmt : StmtId) (n o : NodeId) : Prop where
  bind : ∃ v node, IsBind p stmt v ∧ g.node? n = some node ∧
    nodeIn? g node.cid (entityOf p v) = some n
  waits : ∃ role, (∀ index, role ≠ .arg index) ∧ ⟨stmt, role⟩ ∈ g.sitesOf n
  assigned : ⟨.address, o, n⟩ ∈ g.edges
  function : (g.function? o).isSome = true
  entity : ∀ target, (g.node? o).map Node.entity ≠ some (.boundFunction stmt target)

namespace BindsAgain

variable {g g' : Pag} {stmt : StmtId}

theorem mono (h : BindsAgain p g stmt n o) (hg : g.Extends g') : BindsAgain p g' stmt n o := by
  have ho := Pag.lt_of_function? h.function
  obtain ⟨v, node, hbind, hnode, hv⟩ := h.bind
  obtain ⟨node', hnode', hgrow⟩ := hg.node hnode
  obtain ⟨role, hrole, hsite⟩ := h.waits
  refine ⟨⟨v, node', hbind, hnode', ?_⟩, ⟨role, hrole, hg.site hsite⟩, hg.edge h.assigned, ?_, ?_⟩
  · rw [hgrow.cid]
    exact nodeIn?_mono (entityOf_isPlain p v) hg hv
  · rw [Pag.function?_congr hg ho]
    exact h.function
  · intro target
    obtain ⟨x, hx⟩ := Pag.exists_node? ho
    obtain ⟨x', hx', hgrow⟩ := hg.node hx
    have hne := h.entity target
    rw [hx, Option.map_some] at hne
    rw [hx', Option.map_some, hgrow.entity]
    exact hne

theorem alike (h : BindsAgain p g stmt n o) (hg : g.Alike g') : BindsAgain p g' stmt n o := by
  obtain ⟨v, node, hbind, hnode, hv⟩ := h.bind
  obtain ⟨role, hrole, hsite⟩ := h.waits
  refine ⟨?_, ⟨role, hrole, by rwa [hg.sitesOf]⟩, by rw [hg.edges]; exact h.assigned, ?_, ?_⟩
  · rcases hg.cases n with ⟨x, y, hx, hy, hxy⟩ | ⟨hx, -⟩
    · cases hnode.symm.trans hx
      refine ⟨v, y, hbind, hy, ?_⟩
      rw [hxy.cid, nodeIn?, contextOf_eq (entityOf_isPlain p v) g' g, hg.find?]
      exact hv
    · cases hnode.symm.trans hx
  · rw [hg.function?]
    exact h.function
  · rw [hg.entity]
    exact h.entity

/-- A finished analysis has no such function. -/
theorem not_finished (h : BindsAgain p a.pag stmt n o) : ¬Finished p .wholeProgram a := by
  intro hfinished
  obtain ⟨v, node, hbind, hnode, hv⟩ := h.bind
  obtain ⟨role, hrole, hsite⟩ := h.waits
  obtain ⟨target, htarget⟩ := hfinished.bindsAgain hbind hrole hsite hnode hv
    (hfinished.address h.assigned) h.function
  exact h.entity target htarget

end BindsAgain

/-! ## From the entries on -/

variable {seed : Seed} {entries : List MethodSig} {c : Config}

/-- Whatever fuel it takes to lay the entries out, a run that completes goes on from there. -/
theorem Completes.afterEntries (h : Completes p seed entries c a) {fuel : Nat} {a₀ : Analysis}
    (hrun : (enterEntries { program := p, models := LibraryModel.standard, fuel }).run.run
      (ofGraph (seed.graph p entries) c) = (.ok (), a₀)) :
    ∃ a₁, a₀.Alike { strict := False, known := [] } a₁ ∧ Actions p a₁.builder a.builder := by
  let cmp : Comparison := { strict := False, known := [] }
  obtain ⟨fuel', hsolved⟩ := h.solved
  let s : Setting := { program := p, models := LibraryModel.standard, fuel }
  have hs : s.Comparable cmp fuel' := ⟨rfl, False.elim⟩
  have hgraph : (seed.graph p entries).Alike cmp (seed.graph p entries) :=
    ⟨rfl, rfl, rfl, rfl, List.nil_subset _, List.Subset.refl _, fun _ => rfl⟩
  have hmatch := enterEntries_respects hs (alike_ofGraph (c := c) hgraph rfl rfl)
  replace hsolved : (solve (s.withFuel fuel') c.scale).run.run (ofGraph (seed.graph p entries) c) =
      (.ok (), a) := hsolved
  rw [solve_eq] at hsolved
  obtain ⟨_, a₁, henter, hcomplete⟩ := TryGuarantees.of_bind hsolved
  have hstandard : (s.withFuel fuel').IsStandard := rfl
  have hactions : GuaranteesOn .all (OnBuilder (Actions p)) (complete (s.withFuel fuel') c.scale) :=
    complete_onBuilder (analysisGuarantees_actions hstandard.byActions)
  exact ⟨a₁, (hmatch.both_ok hrun henter).2, (hactions.spec.of_run hcomplete).1⟩

/-- From entries that bind a function again and again, an analysis of the whole program does not
complete. -/
theorem not_completes (hscale : c.scale = .wholeProgram) {fuel : Nat} {a₀ : Analysis}
    (hrun : (enterEntries { program := p, models := LibraryModel.standard, fuel }).run.run
      (ofGraph (seed.graph p entries) c) = (.ok (), a₀)) {stmt : StmtId}
    (h : BindsAgain p a₀.pag stmt n o) : ¬Completes p seed entries c a := by
  intro hcompletes
  obtain ⟨a₁, halike, hactions⟩ := hcompletes.afterEntries hrun
  have hfinished := hcompletes.finished
  rw [hscale] at hfinished
  exact ((h.alike halike.pag).mono (Actions.extends hactions).pag).not_finished hfinished

namespace Sample

open Program

/-- `x = g; x = x.bind()`, where `g` does nothing. -/
def rebind : Program :=
  let (g, p) := (addFile {} file false).2.addFunction file "g"
  let d := (p.openBody g).nop.2.close.openBody main
  let (x, d) := d.localVar "x" .any
  let (_, d) := d.assignNew x (.functionRef g)
  let (_, d) := d.call (some x)
    { kind := .member, method := ⟨.builtin "Function", "bind"⟩, base := some x, args := [] }
  d.close

/-- What the analysis of a sample is like when the entries are laid out. -/
def entered (p : Program) : Except Failure Unit × Analysis :=
  (enterEntries { program := p, models := LibraryModel.standard, fuel := 20 }).run.run
    (ofGraph (Seed.direct.graph p [main]) default)

end Sample

open Sample

/-- The analysis of `rebind` does not complete. -/
theorem rebind_not_completes :
    (default : Config).Valid ∧ ∀ a, ¬Completes rebind .direct [main] default a := by
  have hok : (entered rebind).1 = .ok () := by decide +kernel
  have hbinds : BindsAgain rebind (entered rebind).2.pag 2 1 0 := {
    bind := by
      have hcall : (rebind.invokeOf? 2).map (fun i => (i.kind, i.method.name)) =
          some (.member, "bind") := by decide +kernel
      obtain ⟨i, hi, heq⟩ := Option.map_eq_some_iff.1 hcall
      obtain ⟨hkind, hname⟩ := Prod.mk.inj heq
      have hbind : IsBind rebind 2 0 := ⟨⟨i, hi, hkind, hname⟩, by decide +kernel⟩
      obtain ⟨node, hnode⟩ := Pag.exists_node?
        (show 1 < (entered rebind).2.pag.nodes.size by decide +kernel)
      have hcid : ((entered rebind).2.pag.node? 1).map Node.cid = some 0 := by decide +kernel
      rw [hnode, Option.map_some, Option.some_inj] at hcid
      refine ⟨0, node, hbind, hnode, ?_⟩
      rw [hcid]
      decide +kernel
    waits := ⟨.unknown, nofun, by decide +kernel⟩
    assigned := by decide +kernel
    function := by decide +kernel
    entity := by
      have hentity : ((entered rebind).2.pag.node? 0).map Node.entity = some (.value 1) := by
        decide +kernel
      rw [hentity]
      nofun }
  exact ⟨by decide, fun a => not_completes rfl (Prod.ext hok rfl) hbinds⟩

end Analysis

end PointsTo
