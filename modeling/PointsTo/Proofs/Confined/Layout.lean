import Mathlib.Data.Prod.Lex
import PointsTo.Proofs.Builder.Layout
import PointsTo.Proofs.Confined.Bounds
import PointsTo.Proofs.Confined.Library
import PointsTo.Proofs.Lockstep.Layout

/-!
# Laying out comes to an end

Laying out a method keeps the builder confined: it asks for nodes of what its summary names, and for
methods that it calls. It counts as laid out from then on, and it is laid out once.

So the queue of methods gets empty (`drain_terminates`): what is taken from it is laid out already,
or is laid out now, and there are only so many methods and contexts as long as the number of objects
is bounded.
-/

namespace PointsTo.Build

open Builder (KeepsConfined)

variable {s : Setting} {g : CallGraph} {b : Builder} {cid : ContextId}

theorem enqueue_tryTerminates {p : Program} {f : FuncId} (hb : b.Confined p g)
    (ht : b.HasTarget cid f) :
    TryTerminates p.IsMisplaced (KeepsConfined p g) (enqueue f cid) b fun _ _ => True :=
  (enqueue_terminates hb ht).tryTerminates

/-- The code that sets up what a free local stands for. -/
theorem linkFreeInit_terminates {p : Program} (hb : b.Confined p g) {f : FreeLocal} :
    TryTerminates p.IsMisplaced (KeepsConfined p g) (do
      if let some (.localVar _ _ m) := p.value? f.decl then
        let init ← funcOf p m .blank
        enqueue init (← entryContext init) : TryBuild Unit) b fun _ _ => True := by
  split
  · rename_i m hvalue
    refine .bind (.lift (funcOf_keepsConfined (Program.namesMethod_of_value? hvalue rfl)))
      fun init b₁ h₁ hinit => ?_
    have hb₁ := h₁.confined hb
    refine .bind (.lift (entryContext_keepsConfined hb₁ hinit)) fun cid b₂ h₂ hcid => ?_
    exact enqueue_tryTerminates (h₂.confined hb₁) ⟨hcid, h₂.expands.func hinit⟩
  · exact .pure trivial

theorem linkFree_terminates {p : Program} (hb : b.Confined p g)
    (hc : b.HasContext cid) {f : FreeLocal} (hf : ∃ v, Summarize.freeLocal? p v = some f) :
    TryTerminates p.IsMisplaced (KeepsConfined p g) (linkFree p cid f) b fun _ _ => True := by
  obtain ⟨v, hf⟩ := hf
  obtain ⟨hname, hlocal⟩ := Program.isLocal_of_freeLocal? hf
  have hmentions : p.Mentions f.name := hname ▸ Program.mentions_of_isLocal hlocal
  have hdecl := Program.mentions_decl_of_freeLocal? hf
  unfold linkFree
  refine .bind (.lift (valueNode_locates hb hc hmentions)) fun here b₁ h₁ hhere => ?_
  have hb₁ := h₁.confined hb
  dsimp only
  split
  · exact .seq (.lift (link_keepsConfined hdecl hhere.lt)) fun _ b₂ h₂ =>
      linkFreeInit_terminates (h₂.confined hb₁)
  · rename_i file name hexported
    have hnames : p.Names (.exported file name) := ⟨v, f, hf, hexported⟩
    refine .bind (.lift (nodeOf_locates hb₁ hb₁.hasContext_root hnames))
      fun shared b₂ h₂ hshared => ?_
    refine .seq (.lift (link_keepsConfined hdecl hshared.lt)) fun _ b₃ h₃ => ?_
    refine .seq (.lift (.discard addEdge_keepsConfined)) fun _ b₄ h₄ => ?_
    exact linkFreeInit_terminates (h₄.confined (h₃.confined (h₂.confined hb₁)))

theorem staticResult_keepsConfined {p : Program} (hb : b.Confined p g) (hc : b.HasContext cid)
    {site : CallSite} (hsite : site ∈ g.sites) (hcallee : site.callee < b.graph.nodes.size)
    {result : Option ValueId} (hresult : ∀ v, result = some v → p.Mentions v)
    {args : List (NodeId × Nat)} {thisSrc : Option NodeId} : Spec (KeepsConfined p g) (do
      let result ← match result with
        | some v => some <$> valueNode p cid v
        | none => pure none
      return { site := site.id, callerCid := cid, callee := site.callee, thisSrc, args, result })
      b fun c b' => CallBinding.Confined g b' c := by
  have done : ∀ result b₁, KeepsConfined p g b b₁ → CallBinding.Confined g b₁ {
      site := site.id, callerCid := cid, callee := site.callee, thisSrc, args, result } := by
    intro result b₁ h₁
    exact ⟨Or.inr (Or.inl ⟨site, hsite, rfl⟩), h₁.expands.hasContext hc,
      h₁.expands.func hcallee, nofun, nofun⟩
  cases hv : result with
  | none => exact .pure (done none b (refl_of (KeepsConfined p g) b))
  | some v =>
    refine .seq (.map (valueNode_keepsConfined hb hc (hresult v hv))) fun n b₁ h₁ => ?_
    exact .pure (done n b₁ h₁)

theorem staticBinding_keepsConfined {p : Program} (hb : b.Confined p g) (hc : b.HasContext cid)
    {site : CallSite} (hsite : site ∈ g.sites) (hcallee : site.callee < b.graph.nodes.size)
    {i : Invoke} (hi : p.invokeOf? site.stmt = some i) {result : Option ValueId}
    (hresult : ∀ v, result = some v → p.Mentions v) :
    Spec (KeepsConfined p g) (staticBinding p cid site i result) b fun c b' => c.Confined g b' := by
  unfold staticBinding
  refine .seq (argNodes_keepsConfined hb hc _ _) fun args b₁ h₁ => ?_
  have hb₁ := h₁.confined hb
  have hc₁ := h₁.expands.hasContext hc
  have hcallee₁ := h₁.expands.func hcallee
  cases hbase : i.base with
  | none => exact staticResult_keepsConfined hb₁ hc₁ hsite hcallee₁ hresult
  | some base =>
    have hmentions := Program.mentions_dealias (Program.mentions_of_invokeOf? hi hbase)
    refine .seq (.map (valueNode_keepsConfined hb₁ hc₁ hmentions)) fun thisSrc b₂ h₂ => ?_
    exact staticResult_keepsConfined (h₂.confined hb₁) (h₂.expands.hasContext hc₁) hsite
      (h₂.expands.func hcallee₁) hresult

theorem wireStatic_terminates (hs : s.IsStandard) (hb : b.Confined s.program g)
    (hc : b.HasContext cid) {site : CallSite} (hsite : site ∈ g.sites) :
    TryTerminates s.program.IsMisplaced (KeepsConfined s.program g) (wireStatic s cid site) b
      fun _ _ => True := by
  unfold wireStatic
  dsimp only
  split
  · rename_i i hi
    refine .seq (methodOf_terminates (hb.graph.callee site hsite)).any fun callee b₁ h₁ => ?_
    have hb₁ := h₁.confined hb
    have hcallee := hb₁.graph.callee site hsite
    have hc₁ := h₁.expands.hasContext hc
    split
    · refine .bind (.lift (staticBinding_keepsConfined hb₁ hc₁ hsite hcallee hi
        fun v hv => Program.mentions_of_defValue? hv)) fun c b₂ h₂ hbinding => .discard ?_
      have : Lasts (KeepsConfined s.program g) fun _ => False := ⟨fun _ h => h⟩
      exact (connect_terminates enqueue_terminates (h₂.confined hb₁) hbinding).tryTerminates
    · rw [show s.models = LibraryModel.standard from hs]
      have hid : g.HasId site.id := Or.inr (Or.inl ⟨site, hsite, rfl⟩)
      refine .seq (LibraryModel.runOnCall_terminates ⟨hb₁, hi, rfl, hc₁, hid⟩
        (LibraryModel.standard_terminates s.program g)) fun taken b₂ _ => ?_
      split
      · exact .lift addUnhandled_keepsConfined
      · exact .pure trivial
  · exact .pure trivial

theorem registerDynamic_keepsConfined {p : Program} (hb : b.Confined p g) (hc : b.HasContext cid)
    {role : SiteRole} (hrole : ∀ index, role ≠ .arg index) {site : DynCallSite} :
    Spec (KeepsConfined p g) (registerDynamic p cid role site) b fun _ _ => True := by
  unfold registerDynamic
  split
  · rename_i base hbase
    obtain ⟨i, hi, hbase⟩ := Option.bind_eq_some_iff.1 hbase
    refine .bind (valueNode_locates hb hc (Program.mentions_of_invokeOf? hi hbase))
      fun n b₁ _ hn => ?_
    exact .discard (addSite_keepsConfined hn ⟨i, hi, fun index h => absurd h (hrole index)⟩)
  · exact .pure trivial

theorem layEdge_keepsConfined {p : Program} (hb : b.Confined p g) (hc : b.HasContext cid)
    {e : SummaryEdge} (hsrc : p.Names e.src) (hdst : p.Names e.dst) :
    Spec (KeepsConfined p g) (layEdge p cid e) b fun _ _ => True := by
  refine .seq (nodeOf_keepsConfined hb hc hsrc) fun _ b₁ h₁ => ?_
  refine .seq (nodeOf_keepsConfined (h₁.confined hb) (h₁.expands.hasContext hc) hdst)
    fun _ _ _ => ?_
  exact .discard addEdge_keepsConfined

theorem layOut_terminates (hs : s.IsStandard) (hb : b.Confined s.program g) (hc : b.HasContext cid)
    {summary : Summary} (hsummary : summary.Confined s.program g) :
    TryTerminates s.program.IsMisplaced (KeepsConfined s.program g) (layOut s cid summary) b
      fun _ _ => True := by
  have later :
    ∀ {b₁}, KeepsConfined s.program g b b₁ → b₁.Confined s.program g ∧ b₁.HasContext cid :=
    fun h₁ => ⟨h₁.confined hb, h₁.expands.hasContext hc⟩
  have hreceiver : ∀ index, SiteRole.receiver ≠ .arg index := nofun
  have hunknown : ∀ index, SiteRole.unknown ≠ .arg index := nofun
  unfold layOut
  refine .seq (.forM_any fun e he b₁ h₁ => ?_) fun _ b₁ h₁ => ?_
  · obtain ⟨hsrc, hdst, -⟩ := hsummary.edges e he
    exact .lift (layEdge_keepsConfined (later h₁).1 (later h₁).2 hsrc hdst)
  refine .seq (.forM_any fun f hf b₂ h₂ => ?_) fun _ b₂ h₂ => ?_
  · have h := later (trans_of (KeepsConfined s.program g) h₁ h₂)
    exact linkFree_terminates h.1 h.2 (hsummary.free f hf)
  replace h₂ := trans_of (KeepsConfined s.program g) h₁ h₂
  refine .seq (.forM_any fun site hsite b₃ h₃ => ?_) fun _ b₃ h₃ => ?_
  · have h := later (trans_of (KeepsConfined s.program g) h₂ h₃)
    exact wireStatic_terminates hs h.1 h.2 (hsummary.staticCalls site hsite)
  replace h₃ := trans_of (KeepsConfined s.program g) h₂ h₃
  refine .seq (.forM_any fun site _ b₄ h₄ => ?_) fun _ b₄ h₄ => ?_
  · have h := later (trans_of (KeepsConfined s.program g) h₃ h₄)
    exact .lift (registerDynamic_keepsConfined h.1 h.2 hreceiver)
  replace h₄ := trans_of (KeepsConfined s.program g) h₃ h₄
  refine .forM_any fun site _ b₅ h₅ => ?_
  have h := later (trans_of (KeepsConfined s.program g) h₄ h₅)
  exact .lift (registerDynamic_keepsConfined h.1 h.2 hunknown)

/-- Afterwards the method counts as laid out. If it did so before, nothing is done. -/
theorem instantiate_terminates (hs : s.IsStandard) (hb : b.Confined s.program g) {f : FuncId}
    (ht : b.HasTarget cid f) :
    TryTerminates s.program.IsMisplaced (KeepsConfined s.program g)
      (instantiate s f cid) b fun _ b' =>
      (cid, f) ∈ b'.built ∧ ((cid, f) ∈ b.built → b' = b) := by
  unfold instantiate
  refine .get_bind ?_
  split
  · rename_i hnew
    replace hnew : (cid, f) ∉ b.built := by simpa using hnew
    have hexp : b.LogsOnlyNew { b with built := (cid, f) :: b.built } :=
      ⟨.rfl, .rfl, .rfl, Or.inl, Or.inl, fun hx => List.mem_cons_of_mem _ hx⟩
    have hkeeps : KeepsConfined s.program g b { b with built := (cid, f) :: b.built } := by
      refine ⟨fun hb => ?_, hexp⟩
      refine hb.grow hexp hb.pag (fun hx => Or.inl (Pag.node?_lt hx)) (hb.properItems hexp)
        hb.graph Or.inl (fun hx => ?_) Or.inl Or.inl Or.inl Or.inl
      rcases List.mem_cons.1 hx with heq | hx
      · cases heq
        exact Or.inr (hexp.hasTarget ht)
      · exact Or.inl hx
    refine .modify_bind hkeeps ?_
    refine .seq (summarize_terminates (hkeeps.confined hb) ht.2) fun _ b₂ h₂ => .get_bind ?_
    have hbuilt : (cid, f) ∈ b₂.built := h₂.expands.built List.mem_cons_self
    have h := trans_of (KeepsConfined s.program g) hkeeps h₂
    have hb₂ := h.confined hb
    split
    · rename_i summary hsummary
      refine (layOut_terminates hs hb₂ (h.expands.hasContext ht.1)
        (hb₂.summary (Builder.mem_of_summary? hsummary)).confined).mono fun _ _ h₃ _ => ?_
      exact ⟨h₃.expands.built hbuilt, fun hold => absurd hold hnew⟩
    · exact .pure ⟨hbuilt, fun hold => absurd hold hnew⟩
  · rename_i hold
    exact .pure ⟨by simpa using hold, fun _ => rfl⟩

/-! ## The queue -/

/-- Lays out the first method in the queue; tells whether there was one. -/
def drainStep (s : Setting) : TryBuild Bool := do
  match (← get).pending with
  | [] => return false
  | (f, cid) :: rest =>
    modify fun b => { b with pending := rest }
    instantiate s f cid
    return true

theorem drain_succ (s : Setting) (n : Nat) :
    drain s (n + 1) = (do if ← drainStep s then drain s n) := by
  unfold drainStep
  rw [drain, bind_assoc]
  congr 1
  funext b
  cases b.pending with
  | nil => rfl
  | cons head rest => simp only [bind_assoc, pure_bind, if_true]

/-- How much room there is for more methods, and how long the queue is. -/
noncomputable def drainMeasure (n : Nat) (b : Builder) : Nat ×ₗ Nat :=
  toLex (n - {x | x ∈ b.built}.ncard, b.pending.length)

/-- A method that has left the queue takes room, or had been taken up before. -/
theorem drainMeasure_lt {n : Nat} {b b' : Builder} {f : FuncId} {cid : ContextId}
    {rest : List (FuncId × ContextId)} (hnext : b.pending = (f, cid) :: rest)
    (hbuilt : (cid, f) ∈ b'.built) (hsub : ∀ {x}, x ∈ b.built → x ∈ b'.built)
    (hsame : (cid, f) ∈ b.built → b' = { b with pending := rest })
    (hroom : {x | x ∈ b'.built}.ncard ≤ n) : drainMeasure n b' < drainMeasure n b := by
  unfold drainMeasure
  rw [Prod.Lex.toLex_lt_toLex]
  by_cases hold : (cid, f) ∈ b.built
  · rw [hsame hold]
    refine Or.inr ⟨rfl, ?_⟩
    rw [hnext]
    exact Nat.lt_succ_self _
  · exact Or.inl (room_lt (fun _ hx => hsub hx) hbuilt hold (List.finite_toSet b'.built) hroom)

theorem drainStep_terminates (hs : s.IsStandard) (hb : b.Confined s.program g) {objects n : Nat}
    (hwithin : ∀ b', KeepsConfined s.program g b b' → ¬b'.Exceeds objects → b'.Within n) :
    TryTerminates s.program.IsMisplaced (KeepsConfined s.program g) (drainStep s) b fun more b' =>
      more = true → ¬b'.Exceeds objects → drainMeasure n b' < drainMeasure n b := by
  unfold drainStep
  refine .get_bind ?_
  split
  · exact .pure nofun
  · rename_i f cid rest hpending
    have hexp : b.LogsOnlyNew { b with pending := rest } := .of_same .rfl .rfl .rfl rfl rfl rfl
    have hkeeps : KeepsConfined s.program g b { b with pending := rest } := by
      refine ⟨fun hb => ?_, hexp⟩
      refine hb.grow hexp hb.pag (fun hx => Or.inl (Pag.node?_lt hx)) (hb.properItems hexp)
        hb.graph Or.inl Or.inl (fun hx => Or.inl ?_) Or.inl Or.inl Or.inl
      rw [hpending]
      exact List.mem_cons_of_mem _ hx
    have ht : b.HasTarget cid f := hb.pending (by rw [hpending]; exact List.mem_cons_self)
    refine .modify_bind hkeeps ?_
    refine .bind (instantiate_terminates hs (hkeeps.confined hb) (hexp.hasTarget ht))
      fun _ b₂ h₂ ⟨hbuilt, hsame⟩ => .pure fun _ hin => ?_
    have h := trans_of (KeepsConfined s.program g) hkeeps h₂
    exact drainMeasure_lt hpending hbuilt h.expands.built hsame (hwithin b₂ h hin).built

variable {objects : Nat}

theorem drain_terminates (hs : s.IsStandard) (hb : b.Confined s.program g) :
    Terminates s.program.IsMisplaced (KeepsConfined s.program g) (Builder.Exceeds objects)
      (fun n => drain (s.withFuel n) n) b
      fun _ _ => True := by
  obtain ⟨n, hwithin⟩ := Builder.Confined.within s.program g b.contexts.k objects
  let I : Builder → Prop := fun b' => b'.Confined s.program g ∧ b'.contexts.k = b.contexts.k
  refine .loop (I := I) (drainMeasure n) (fun fuel b₁ _ => ?_)
    (fun fuel k => drain_succ (s.withFuel fuel) k) (fun b₁ ⟨hb₁, hk₁⟩ => ?_) ⟨hb, rfl⟩
  · unfold drain
    refine .get_bind ?_
    split
    · exact .throw (Or.inl rfl)
    · exact .pure trivial
  · have hin : ∀ b₂, KeepsConfined s.program g b₁ b₂ → ¬b₂.Exceeds objects → b₂.Within n :=
      fun b₂ h₂ hin => hwithin b₂ (h₂.confined hb₁) (h₂.expands.contexts.k.trans hk₁)
        (Nat.le_of_not_lt hin)
    have hstep := drainStep_terminates hs hb₁ hin
    refine Terminates.of_tryTerminates (hstep.mono fun more b₂ h₂ hless =>
      ⟨⟨h₂.confined hb₁, ?_⟩, hless⟩)
    exact h₂.expands.contexts.k.trans hk₁

theorem enterNow_terminates (hs : s.IsStandard) :
    EnterTerminates s.program g (Builder.Exceeds objects) fun n => enterNow (s.withFuel n) := by
  intro b f cid hb ht
  exact .seq (enqueue_terminates hb ht) fun _ _ h₁ => drain_terminates hs (h₁.confined hb)

theorem enterEntry_terminates (hs : s.IsStandard) (hb : b.Confined s.program g) {f : FuncId}
    (hf : f < b.graph.nodes.size) :
    Terminates s.program.IsMisplaced (KeepsConfined s.program g) (Builder.Exceeds objects)
      (fun n => enterEntry (s.withFuel n) f) b
      fun _ _ => True := by
  refine .bind (.of_tryTerminates (.lift (entryContext_keepsConfined hb hf)))
    fun cid b₁ h₁ hcid => ?_
  refine .seq (enterNow_terminates hs (h₁.confined hb) ⟨hcid, h₁.expands.func hf⟩) fun _ _ _ => ?_
  exact .pure trivial

theorem runModels_terminates (hs : s.IsStandard) {c : ModelCall} (hc : c.Confined s.program g b)
    {role : SiteRole} {obj : NodeId} (hobj : b.pag.isObject obj = true) :
    Terminates s.program.IsMisplaced (KeepsConfined s.program g) (Builder.Exceeds objects)
      (fun n => runModels (s.withFuel n) c role obj) b fun _ _ => True := by
  have hmodels : ∀ m ∈ s.models, m.Terminates s.program g := by
    rw [show s.models = LibraryModel.standard from hs]
    exact LibraryModel.standard_terminates s.program g
  refine .seq (.of_tryTerminates (LibraryModel.runOnObject_terminates hc hobj hmodels))
    fun taken b₁ h₁ => ?_
  exact .seq (drain_terminates hs (h₁.confined hc.builder)) fun _ _ _ => .pure trivial

end PointsTo.Build
