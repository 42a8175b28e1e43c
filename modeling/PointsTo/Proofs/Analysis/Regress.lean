import PointsTo.Proofs.Analysis.Arguments
import PointsTo.Proofs.Analysis.Completion
import PointsTo.Proofs.Analysis.Termination

/-!
# Contexts made of objects

If calls are told apart by their receivers, the context of a call ends with the object that is
called on, and what the callee allocates there is an object of its own. So a function that makes a
function object of itself in each of its contexts, and leaves it where it is called in turn, has a
context for every object that it makes, and makes an object in every context (`Completes.regress`).
No two objects get the same context, and the empty context is that of no object. Hence an analysis
that has the function in the empty context does not complete (`not_completes_of_callsItself`),
whatever the fuel, and however short the contexts are, as long as they are not all empty.
-/

namespace PointsTo

namespace ContextTable

variable {P : ContextItem → Prop} {t t' : ContextTable} {cid : ContextId} {x x' : ContextItem}

/-- The item is the last one of the context. -/
def EndsWith (t : ContextTable) (cid : ContextId) (x : ContextItem) : Prop :=
  ∃ ctx i, t.context? cid = some ctx ∧ ctx.getLast? = some i ∧ t.item? i = some x

theorem EndsWith.mono (h : t.EndsWith cid x) (ht : t.Extends t') : t'.EndsWith cid x := by
  obtain ⟨ctx, i, hctx, hlast, hi⟩ := h
  exact ⟨ctx, i, ht.context hctx, hlast, ht.item hi⟩

theorem EndsWith.unique (h : t.EndsWith cid x) (h' : t.EndsWith cid x') : x = x' := by
  obtain ⟨ctx, i, hctx, hlast, hi⟩ := h
  obtain ⟨ctx', i', hctx', hlast', hi'⟩ := h'
  cases hctx.symm.trans hctx'
  cases hlast.symm.trans hlast'
  exact Option.some.inj (hi.symm.trans hi')

theorem Proper.not_endsWith_root (h : t.Proper P) : ¬t.EndsWith Context.root x := by
  rintro ⟨ctx, i, hctx, hlast, -⟩
  cases h.root.symm.trans hctx
  cases hlast

/-- The item that is added is kept, if any is. -/
theorem endsWith_extend (t : ContextTable) (caller : ContextId) (x : ContextItem) (hk : 0 < t.k) :
    (t.extend caller x).2.EndsWith (t.extend caller x).1 x := by
  refine ⟨_, _, t.context?_extend caller x, ?_, getElem?_intern t.items x⟩
  unfold extension Context.append
  rw [List.getLast?_drop, if_neg (by simp only [List.length_append, List.length_singleton]; omega),
    List.getLast?_concat]

theorem endsWith_select (t : ContextTable) (caller : ContextId) (site obj callee : Nat)
    (hobject : t.sensitivity = .object) (hk : 0 < t.k) :
    (t.select caller site (some obj) callee).2.EndsWith
      (t.select caller site (some obj) callee).1 (.object obj) := by
  unfold select
  rw [hobject]
  exact t.endsWith_extend caller (.object obj) hk

end ContextTable

open Builder (CallContext)
open Build

namespace Analysis

variable {p : Program} {b b' : Builder} {m : MethodSig} {v : ValueId} {field : FieldSig}
  {f : FuncId} {stmt : StmtId} {n : NodeId}

/-- In the body of the method `m`, the value `v`, which is the function `m` itself, is assigned to a
local and that to a static field. The field is copied to the node `n`, where the statement calls
what is there. And `m` has been taken up in the empty context. -/
structure CallsItself (p : Program) (b : Builder) (m : MethodSig) (v : ValueId) (field : FieldSig)
    (f : FuncId) (stmt : StmtId) (n : NodeId) : Prop where
  body : p.hasBody m = true
  unshared : ¬p.SharesReturned m
  function : p.value? v = some (.functionRef m)
  call : ∃ i, p.invokeOf? stmt = some i ∧ i.kind ≠ .pointer ∧ i.method.name = "call"
  method : b.graph.methodOf? f = some m
  takenUp : (Context.root, f) ∈ b.built
  assigned : ∃ s r i j, b.summary? f = some s ∧ ⟨.address, .value v, .value r, i⟩ ∈ s.edges ∧
    ⟨.copy, .value r, .staticField field, j⟩ ∈ s.edges
  read : ∃ src, nodeIn? b.pag Context.root (.staticField field) = some src ∧
    ⟨.copy, src, n⟩ ∈ b.pag.edges
  waits : ∃ role, (∀ index, role ≠ .arg index) ∧ ⟨stmt, role⟩ ∈ b.pag.sitesOf n

theorem CallsItself.mono (h : CallsItself p b m v field f stmt n) (hb : b.Extends b') :
    CallsItself p b' m v field f stmt n := by
  obtain ⟨s, r, i, j, hs, hedges⟩ := h.assigned
  obtain ⟨src, hsrc, hcopy⟩ := h.read
  obtain ⟨role, hrole, hsite⟩ := h.waits
  exact { h with
    method := hb.graph.method h.method
    takenUp := hb.built h.takenUp
    assigned := ⟨s, r, i, j, hb.summary hs, hedges⟩
    read := ⟨src, nodeIn?_mono (e := .staticField field) trivial hb.pag hsrc, hb.pag.edge hcopy⟩
    waits := ⟨role, hrole, hb.pag.site hsite⟩ }

theorem CallsItself.alike {cmp : Comparison} (h : CallsItself p b m v field f stmt n)
    (hb : b.Alike cmp b') : CallsItself p b' m v field f stmt n :=
  { h with
    method := by rw [hb.graph.methodOf?]; exact h.method
    takenUp := by rw [hb.built]; exact h.takenUp
    assigned := by simpa only [hb.summary?] using h.assigned
    read := by simpa only [nodeIn?, contextOf, hb.pag.find?, hb.pag.edges] using h.read
    waits := by simpa only [hb.pag.sitesOf] using h.waits }

variable {seed : Seed} {entries : List MethodSig} {c : Config} {a : Analysis} {cid : ContextId}

theorem Completes.confined (h : Completes p seed entries c a) :
    a.builder.Confined p (seed.graph p entries) ∧ a.builder.contexts.k = c.kLimit ∧
      a.builder.contexts.sensitivity = c.sensitivity := by
  obtain ⟨fuel, hrun⟩ := h.solved
  have hend := solveFrom_confined p seed entries c fuel
  rw [show solveFrom p seed entries c fuel = (.ok (), a) from hrun] at hend
  exact hend

/-- When an analysis completes, the function has made an object in each of its contexts, and that
has got to where it is called. -/
theorem Completes.makes (h : Completes p seed entries c a)
    (hself : CallsItself p a.builder m v field f stmt n) (hf : (cid, f) ∈ a.builder.built) :
    ∃ o, a.pag.find? cid (.value v) = some o ∧ o ∈ a.pag.ptsOf n ∧ p.Binds a.pag o m [] := by
  have hfinished := h.finished
  obtain ⟨s, hs, hfulfils⟩ := h.fulfils hf
  obtain ⟨s', r, i, j, hs', hmade, hstored⟩ := hself.assigned
  cases hs.symm.trans hs'
  -- The object goes to the local, from there to the field, and from there to where it is called.
  obtain ⟨o, dst, ho, hdst, haddress⟩ := hfulfils.moves _ hmade
  obtain ⟨dst', src, hdst', hsrc, hcopy⟩ := hfulfils.moves _ hstored
  cases hdst.symm.trans hdst'
  obtain ⟨src', hsrc', hcopy'⟩ := hself.read
  cases hsrc.symm.trans hsrc'
  refine ⟨o, ho, hfinished.copy (Or.inl hcopy') (hfinished.copy (Or.inl hcopy)
    (hfinished.address haddress)), ?_⟩
  obtain ⟨x, hx, hentity⟩ := exists_of_nodeIn? ho
  have hkind := (h.confined.1.node hx).kind.named
  rw [hentity] at hkind
  obtain ⟨fn, hfn⟩ := Option.isSome_iff_exists.1 (hkind ⟨m, hself.function⟩)
  exact .literal hx (NodeKind.eq_function_of_function? hfn) hentity hself.function

/-- When an analysis completes in which receivers tell calls apart, the object that the function has
made in a context has given it a context in turn. -/
theorem Completes.regress (h : Completes p seed entries c a) (hscale : c.scale = .wholeProgram)
    (hobject : c.sensitivity = .object) (hk : 0 < c.kLimit)
    (hself : CallsItself p a.builder m v field f stmt n) (hf : (cid, f) ∈ a.builder.built) :
    ∃ o inner, a.pag.find? cid (.value v) = some o ∧ (inner, f) ∈ a.builder.built ∧
      a.builder.contexts.EndsWith inner (.object o) := by
  obtain ⟨o, ho, hmem, hbinds⟩ := h.makes hself hf
  obtain ⟨i, hi, hkind, hname⟩ := hself.call
  obtain ⟨role, hrole, hsite⟩ := hself.waits
  obtain ⟨node, hnode⟩ := Pag.exists_node? (Builder.lt_of_mem_sitesOf hsite)
  obtain ⟨st, hst⟩ : ∃ st, p.stmt? stmt = some st :=
    ⟨_, Array.getElem?_eq_getElem (Program.lt_of_invokeOf? hi)⟩
  have hreached : Reached p a.pag ⟨stmt, role⟩ o i st.method node.cid := {
    invoke := hi
    ofMethod := congrArg (Option.map Stmt.method) hst
    waits := ⟨n, congrArg (Option.map Node.cid) hnode, hsite, hmem⟩ }
  obtain ⟨callee, inner, hcallee, hasked, hcontext, -⟩ :=
    h.passes hscale hreached hbinds hself.body (.function hrole hkind hname)
  have hfinished := h.finished
  cases hfinished.valid.grounded.sound.graph.distinct hcallee hself.method
  refine ⟨o, inner, ho, h.built hasked, ?_⟩
  obtain ⟨-, hlimit, hsensitivity⟩ := h.confined
  cases hcontext with
  | shared single =>
    obtain ⟨m', hm', hshares⟩ := h.shares single
    cases hself.method.symm.trans hm'
    exact absurd hshares hself.unshared
  | @chosen t single after before =>
    refine .mono (t.endsWith_select _ _ _ _ ?_ ?_) before
    · exact after.sensitivity.trans (hsensitivity.trans hobject)
    · rw [after.k]
      exact hlimit ▸ hk

/-- So there is no such function when an analysis completes: the contexts of the function are
finitely many, each of them would give another one, and none would give the empty context. -/
theorem Completes.not_callsItself (h : Completes p seed entries c a)
    (hscale : c.scale = .wholeProgram) (hobject : c.sensitivity = .object) (hk : 0 < c.kLimit) :
    ¬CallsItself p a.builder m v field f stmt n := by
  classical
  intro hself
  let contexts := ((a.builder.built.filter fun x => x.2 = f).map Prod.fst).toFinset
  have hmem : ∀ cid, cid ∈ contexts ↔ (cid, f) ∈ a.builder.built := by
    intro cid
    simp [contexts]
  have hregress : ∀ cid ∈ contexts, ∃ o inner, a.pag.find? cid (.value v) = some o ∧
      inner ∈ contexts ∧ a.builder.contexts.EndsWith inner (.object o) := by
    intro cid hcid
    obtain ⟨o, inner, ho, hinner, hends⟩ :=
      h.regress hscale hobject hk hself ((hmem cid).1 hcid)
    exact ⟨o, inner, ho, (hmem inner).2 hinner, hends⟩
  choose! made next hmade hnext hends using hregress
  have hinj : Set.InjOn next contexts := by
    intro cid hcid cid' hcid' heq
    have hlast := hends cid hcid
    rw [heq] at hlast
    have hsame : made cid = made cid' := ContextItem.object.inj (hlast.unique (hends cid' hcid'))
    -- The object tells which context it was made in.
    obtain ⟨⟨x, hx, rfl, -⟩, -⟩ := Pag.find?_eq_some_iff.1 (hmade cid hcid)
    obtain ⟨⟨x', hx', rfl, -⟩, -⟩ := Pag.find?_eq_some_iff.1 (hmade cid' hcid')
    rw [hsame, hx'] at hx
    cases hx
    rfl
  obtain ⟨cid, hcid, hroot⟩ := Finset.surjOn_of_injOn_of_card_le next hnext hinj le_rfl
    ((hmem Context.root).2 hself.takenUp)
  have hlast := hends cid hcid
  rw [hroot] at hlast
  exact h.confined.1.contexts.not_endsWith_root hlast

/-- From entries with such a function, an analysis of the whole program in which receivers tell
calls apart does not complete. -/
theorem not_completes_of_callsItself (hscale : c.scale = .wholeProgram)
    (hobject : c.sensitivity = .object) (hk : 0 < c.kLimit) {fuel : Nat} {a₀ : Analysis}
    (hrun : (enterEntries { program := p, models := LibraryModel.standard, fuel }).run.run
      (ofGraph (seed.graph p entries) c) = (.ok (), a₀))
    (h : CallsItself p a₀.builder m v field f stmt n) : ¬Completes p seed entries c a := by
  intro hcompletes
  obtain ⟨a₁, halike, hactions⟩ := hcompletes.afterEntries hrun
  exact hcompletes.not_callsItself hscale hobject hk
    ((h.alike halike.builder).mono (Builder.Actions.extends hactions))

namespace Sample

open Program

/-- The function of `selfCall`. -/
def recurring : MethodSig := ⟨file.defaultClass, "g"⟩

/-- Where it puts itself. -/
def slot : FieldSig :=
  ⟨some ⟨file, "S"⟩, "f", true⟩

/-- Calls are told apart by their receivers. -/
def byReceiver : Config :=
  { (default : Config) with sensitivity := .object }

/-- `g(); x = S.f; x.call()`, where `g` does `r = g; S.f = r`. -/
def selfCall : Program :=
  let (cls, p) := (addFile {} file false).2.addClass file "S" none
  let (r, d) := ((p.addFunction file "g").2.openBody recurring).localVar "r" .any
  let (_, d) := d.assignNew r (.functionRef recurring)
  let (_, d) := d.storeStatic cls "f" r
  let (x, d) := (d.close.openBody main).localVar "x" .any
  let (_, d) := d.call none { kind := .named, method := recurring, base := none, args := [] }
  let (_, d) := d.loadStatic x cls "f"
  let (_, d) := d.call none
    { kind := .member, method := ⟨.builtin "Function", "call"⟩, base := some x, args := [] }
  d.close

/-- What the analysis of `selfCall` is like when the entries are laid out. -/
def selfCallEntered : Except Failure Unit × Analysis :=
  (enterEntries { program := selfCall, models := LibraryModel.standard, fuel := 20 }).run.run
    (ofGraph (Seed.direct.graph selfCall [main]) byReceiver)

end Sample

open Sample

/-- The analysis of `selfCall` does not complete if receivers tell calls apart, with contexts of one
item. No function is bound there. -/
theorem selfCall_not_completes : byReceiver.Valid ∧ byReceiver.kLimit = 1 ∧
    (∀ stmt, ¬selfCall.BindsAt stmt) ∧ ∀ a, ¬Completes selfCall .direct [main] byReceiver a := by
  have hok : selfCallEntered.1 = .ok () := by decide +kernel
  have hself : CallsItself selfCall selfCallEntered.2.builder recurring 1 slot 1 4 1 := {
    body := by decide +kernel
    unshared := by decide +kernel
    function := by decide +kernel
    call := by
      have hcall : (selfCall.invokeOf? 4).map (fun i => (i.kind, i.method.name)) =
          some (.member, "call") := by decide +kernel
      obtain ⟨i, hi, heq⟩ := Option.map_eq_some_iff.1 hcall
      obtain ⟨hkind, hname⟩ := Prod.mk.inj heq
      exact ⟨i, hi, by simp [hkind], hname⟩
    method := by decide +kernel
    takenUp := by decide +kernel
    assigned := by
      have hedges : (selfCallEntered.2.builder.summary? 1).map Summary.edges = some
          [⟨.address, .value 1, .value 0, 0⟩, ⟨.copy, .value 0, .staticField slot, 1⟩] := by
        decide +kernel
      obtain ⟨s, hs, heq⟩ := Option.map_eq_some_iff.1 hedges
      exact ⟨s, 0, 0, 1, hs, by simp [heq], by simp [heq]⟩
    read := ⟨0, by decide +kernel, by decide +kernel⟩
    waits := ⟨.unknown, nofun, by decide +kernel⟩ }
  exact ⟨by decide, rfl, Program.not_bindsAt (by decide +kernel), fun a =>
    not_completes_of_callsItself rfl rfl Nat.one_pos (Prod.ext hok rfl) hself⟩

end Analysis

end PointsTo
