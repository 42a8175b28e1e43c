import PointsTo.Proofs.Confined.Resolution
import PointsTo.Proofs.Lockstep.Runs

/-!
# Rounds come to an end

A round asks for another one if it has brought in edges, or if it has left edges or calls in the
logs. What is left in the logs was not there before the round, so there is less room for more. And
if nothing is left, the next round has no edges to bring in. So the rounds come to an end, as long
as the number of objects is bounded (`solve_terminates`).
-/

namespace PointsTo

/-- Edges and calls may be taken from the logs. -/
theorem Builder.keepsConfined_take {p : Program} {g : CallGraph} {b : Builder}
    (newEdges : Array FlowEdge)
    (newSites : Array (NodeId × SiteRef)) (he : ∀ e ∈ newEdges, e ∈ b.newEdges)
    (hs : ∀ x ∈ newSites, x ∈ b.newSites) : b.KeepsConfined p g { b with newEdges, newSites } := by
  have hexp : b.LogsOnlyNew { b with newEdges, newSites } :=
    ⟨.rfl, .rfl, .rfl, fun hx => Or.inl (he _ hx), fun hx => Or.inl (hs _ hx), fun hx => hx⟩
  refine ⟨fun hb => ?_, hexp⟩
  exact hb.grow hexp hb.pag (fun hx => Or.inl (Pag.node?_lt hx)) (hb.properItems hexp) hb.graph
    Or.inl Or.inl Or.inl Or.inl (fun hx => Or.inl (he _ hx)) fun hx => Or.inl (hs _ hx)

namespace Analysis

open Build

variable {s : Setting} {p : Program} {g : CallGraph} {scale : Scale} {k objects : Nat}
  {a a' : Analysis} {α : Type}

/-! ## Calls -/

theorem KeepsConfined.waiting (h : KeepsConfined p g a a') :
    a.builder.waiting ⊆ a'.builder.waiting :=
  fun _ hx => h.expands.pag.site hx

theorem lookForEach_terminates (hs : s.IsStandard) (hb : a.builder.Confined s.program g)
    {n : NodeId} (hn : a.pag.IsOwner n) {site : SiteRef} {objs : List NodeId}
    (hobjs : ∀ o ∈ objs, a.pag.isObject o = true) :
    Terminates s.program.IsMisplaced (KeepsConfined s.program g) (Exceeds objects)
      (fun k => objs.forM (processSite (s.withFuel k) n site)) a fun _ _ => True :=
  .forM_any fun o ho _ h₁ =>
    processSite_terminates hs (h₁.confined hb) (hn.mono h₁.expands.pag)
      (h₁.expands.pag.isObject (hobjs o ho))

/-- If looking at calls adds anything, then edges are logged, or some call did not wait before. -/
theorem resolveCalls_terminates (hs : s.IsStandard) (hb : a.builder.Confined s.program g)
    (harr : ∀ {n objs o}, (n, objs) ∈ a.arrivals → o ∈ objs → a.pag.isObject o = true) :
    Terminates s.program.IsMisplaced (KeepsConfined s.program g) (Exceeds objects)
      (fun n => resolveCalls (s.withFuel n)) a
      fun found a' => found = true → a'.builder.newEdges ≠ #[] ∨
        ∃ x ∈ a'.builder.waiting, x ∉ a.builder.waiting := by
  unfold resolveCalls
  have htaken : KeepsConfined s.program g a { a with arrivals := #[] } :=
    .of_builder rfl fun n hn => hn.imp_right fun hn => Or.inr (hn.resolve_left (by simp))
  refine .get_bind (.modify_bind htaken ?_)
  refine .seq (.forM_any fun x hx a₁ h₁ => .get_bind ?_) fun _ a₁ h₁ => ?_
  · refine .forM_any fun site hsite a₂ h₂ => ?_
    have hn := ((h₁.confined hb).pag.waits hsite).mono h₂.expands.pag
    refine lookForEach_terminates hs (h₂.confined (h₁.confined hb)) hn fun o ho => ?_
    have hobj := harr (Array.mem_toList_iff.1 hx) ho
    exact h₂.expands.pag.isObject (h₁.expands.pag.isObject hobj)
  have hb₁ := h₁.confined hb
  let a₂ : Analysis := { a₁ with builder := { a₁.builder with newSites := #[] } }
  have h₂ : KeepsConfined s.program g a₁ a₂ :=
    .build (Builder.keepsConfined_take a₁.builder.newEdges #[] (fun _ he => he) (by simp))
  have hb₂ := h₂.confined hb₁
  refine .get_bind (.modify_bind h₂ ?_)
  refine .seq (.forM_any fun x hx a₃ h₃ => .get_bind ?_) fun _ a₃ h₃ => .get_bind (.pure ?_)
  · have hwaits := hb₁.loggedSites (Array.mem_toList_iff.1 hx)
    have hn := (hb₂.pag.waits hwaits).mono h₃.expands.pag
    exact lookForEach_terminates hs (h₃.confined hb₂) hn fun o ho => (h₃.confined hb₂).pag.shown ho
  -- The calls in the log came after it was emptied.
  intro hfound
  by_cases hedges : a₃.builder.newEdges = #[]
  · have hsites : 0 < a₃.builder.newSites.size := by
      simpa [hedges, Array.size_pos_iff] using hfound
    have hlast : a₃.builder.newSites[0] ∈ a₃.builder.newSites := Array.getElem_mem hsites
    refine Or.inr ⟨a₃.builder.newSites[0], (h₃.confined hb₂).loggedSites hlast, fun hold => ?_⟩
    have hold₂ := trans_of (KeepsConfined s.program g) h₁ h₂ |>.waiting hold
    rcases h₃.expands.newSites hlast with hx | hx
    · exact absurd hx (Array.not_mem_empty _)
    · exact hx hold₂
  · exact Or.inl hedges

/-! ## Sets stay canonical -/

/-- A step that goes the same way as itself keeps sets canonical. -/
theorem Follows.canonical {m : TryAnalysis α}
    (h : Follows { strict := True, known := [] } p m m a a) :
    TrySpec AnyChange m a fun _ a' => a'.Canonical := by
  rcases h with (⟨-, h⟩ | ⟨hs, -⟩) | ⟨hs, -⟩
  · exact ⟨trivial, fun _ _ => h⟩
  · exact absurd trivial hs
  · exact absurd trivial hs

theorem comparable_withFuel (hs : s.IsStandard) (cmp : Comparison) (n : Nat) :
    (s.withFuel n).Comparable cmp n :=
  ⟨hs, fun _ => rfl⟩

/-! ## One round -/

/-- Bringing in edges takes them from the log. -/
theorem builder_seed (ha : a.Grounded p) :
    (seed a).2.builder = { a.builder with newEdges := #[] } :=
  (seed_seeded ha).1.builder

theorem reseed_keepsConfined {n : NodeId} (hn : n < a.pag.nodes.size) :
    KeepsConfined p g a (a.reseed n) := by
  have heq : a.reseed n =
      a.receive n (({ a with facts := (a.facts.reseed n).2 } : Analysis).facts.hasFresh n,
        (a.facts.reseed n).2) := rfl
  rw [heq]
  exact receive_keepsConfined hn fun _ => DiffStore.hasKey_reseed

/-- The base of an access is a node. -/
theorem lt_of_refBase? (hb : a.builder.Confined p g) {n m : NodeId} (h : a.refBase? n = some m) :
    m < a.pag.nodes.size := by
  obtain ⟨⟨base, key⟩, hr, rfl⟩ := Option.bind_eq_some_iff.1 h
  obtain ⟨⟨cid, e, kind, pts, sites⟩, hx, hkind⟩ := Option.bind_eq_some_iff.1 hr
  cases kind with
  | reference base key cloneOf =>
    cases hkind
    refine (hb.node hx).kind.index (.node m) ?_
    simp [NodeKind.indices]
  | _ => cases hkind

/-- The ends of an edge are nodes, and what they read through is one. -/
theorem seedEdge_keepsConfined (hb : a.builder.Confined p g) {e : FlowEdge} (he : e ∈ a.pag.edges) :
    KeepsConfined p g a (a.seedEdge e) := by
  obtain ⟨hsrc, hdst⟩ := hb.pag.edge he
  have base : ∀ n, KeepsConfined p g a (((a.refBase? n).map a.reseed).getD a) := by
    intro n
    cases hn : a.refBase? n with
    | none => exact refl_of (KeepsConfined p g) a
    | some m => exact reseed_keepsConfined (lt_of_refBase? hb hn)
  obtain ⟨kind, src, dst⟩ := e
  cases kind with
  | address => exact receive_keepsConfined hdst fun _ => DiffStore.hasKey_add
  | load => exact base src
  | write => exact base dst
  | copy | this | interprocedural => exact reseed_keepsConfined hsrc

theorem seed_keepsConfined (hb : a.builder.Confined p g) : KeepsConfined p g a (seed a).2 := by
  have h₁ : KeepsConfined p g a a.takeEdges :=
    .build (Builder.keepsConfined_take #[] a.builder.newSites (by simp) fun _ hx => hx)
  rw [seed_eq]
  refine trans_of (KeepsConfined p g) h₁ (foldl_any fun e he a₁ h₂ => ?_)
  have h := trans_of (KeepsConfined p g) h₁ h₂
  exact seedEdge_keepsConfined (h.confined hb)
    (h.expands.pag.edge (hb.logged (Array.mem_toList_iff.1 he)))

/-- What a round has done. The edges that it leaves in the log are new. If it asks for another one,
there were edges in the log, or there are now, or there is a new call. -/
structure Advances (a a' : Analysis) (more : Bool) : Prop where
  logged : ∀ {e}, e ∈ a'.builder.newEdges → e ∉ a.pag.edges
  more : more = true → a.builder.newEdges ≠ #[] ∨ a'.builder.newEdges ≠ #[] ∨
    ∃ x ∈ a'.builder.waiting, x ∉ a.builder.waiting

theorem WithinBounds.countRound (h : WithinBounds p g k a)
    (hgrounded : Grounded p { a with
      stats := { a.stats with iterations := a.stats.iterations + 1 } }) :
    WithinBounds p g k
      { a with stats := { a.stats with iterations := a.stats.iterations + 1 } } where
  grounded := hgrounded
  canonical := Alike.countRound h.canonical
  confined := h.confined
  k := h.k

theorem round_terminates (hs : s.IsStandard) (ho : RunInvariant s.program scale a)
    (hc : WithinBounds s.program g k a) :
    Terminates s.program.IsMisplaced (KeepsConfined s.program g) (Exceeds objects)
      (fun n => round (s.withFuel n) scale) a
      fun more a' => Advances a a' more := by
  let stats := { a.stats with iterations := a.stats.iterations + 1 }
  let a₀ : Analysis := { a with stats }
  have ho₀ : RunInvariant s.program scale a₀ :=
    ⟨ho.toRoundInvariant.forget _ stats fun _ hx => hx, ho.covered⟩
  have hbuilder : (seed a₀).2.builder = { a.builder with newEdges := #[] } :=
    builder_seed ho₀.valid.grounded
  have h₁ : KeepsConfined s.program g a₀ (seed a₀).2 := seed_keepsConfined hc.confined
  unfold round
  refine .modify_bind (.of_builder rfl fun _ => id) ?_
  refine .bind (P := fun seeded a₁ => seeded = !a.builder.newEdges.isEmpty ∧ a₁ = (seed a₀).2)
    (.of_tryTerminates (.modifyGet h₁ ⟨rfl, rfl⟩)) ?_
  rintro _ a₁ - ⟨rfl, ha₁⟩
  have ho₁ : RunInvariant s.program scale a₁ := ha₁ ▸ ((seed_spec ho₀).of_run rfl).2.1
  have hcanonical₁ : a₁.Canonical := ha₁ ▸ (Alike.countRound hc.canonical).seed.2
  rw [← ha₁] at h₁ hbuilder
  have hc₀ : WithinBounds s.program g k a₀ := hc.countRound ho₀.valid.grounded
  have hc₁ : WithinBounds s.program g k a₁ := hc₀.keep h₁ ho₁.valid.grounded hcanonical₁
  -- Whatever is logged later was not there when the log was emptied.
  have logged : ∀ {a₃ : Analysis}, KeepsConfined s.program g a₁ a₃ →
      ∀ {e}, e ∈ a₃.builder.newEdges → e ∉ a.pag.edges := by
    intro a₃ h₃ e he hold
    have hpag : a₁.builder.pag = a.builder.pag := by rw [hbuilder]
    rcases h₃.expands.newEdges he with he | hnew
    · rw [hbuilder] at he
      exact absurd he (Array.not_mem_empty e)
    · rw [hpag] at hnew
      exact hnew hold
  have seeded : ∀ {b : Bool}, b = !a.builder.newEdges.isEmpty → b = true →
      a.builder.newEdges ≠ #[] := by
    rintro _ rfl hb hempty
    simp [hempty] at hb
  refine .bind ((propagate_terminates hc₁).and fun n => propagate_spec n ho₁) ?_
  rintro - a₂ h₂ ⟨-, -, ho₂, -⟩
  refine .get_bind ?_
  by_cases hlook : (decide (scale = .wholeProgram) || decide (a₂.stats.iterations = 1)) = true
  · simp only [hlook, if_true]
    refine .bind (resolveCalls_terminates hs (h₂.confined hc₁.confined) ho₂.arrived) ?_
    intro found a₃ h₃ hfound
    have h₁₂ := trans_of (KeepsConfined s.program g) h₁ h₂
    refine .pure ⟨logged (trans_of (KeepsConfined s.program g) h₂ h₃), fun hmore => ?_⟩
    rcases Bool.or_eq_true_iff.1 hmore with hmore | hmore
    · exact Or.inl (seeded rfl hmore)
    · refine Or.inr ((hfound hmore).imp_right ?_)
      rintro ⟨x, hx, hno⟩
      exact ⟨x, hx, fun hold => hno (h₁₂.waiting hold)⟩
  · simp only [hlook]
    have h₃ : KeepsConfined s.program g a₂ (dropCalls a₂) :=
      .of_new (Builder.keepsConfined_take a₂.builder.newEdges #[] (fun _ he => he) (by simp))
      fun n hn => Or.inl (hn.imp_right fun hn => Or.inr (hn.resolve_left (by simp [dropCalls])))
    refine .modify_bind h₃
      (.pure ⟨logged (trans_of (KeepsConfined s.program g) h₂ h₃), fun hmore => ?_⟩)
    exact Or.inl (seeded rfl hmore)

/-! ## All rounds -/

theorem ncard_mem_le (xs : Array α) : {x | x ∈ xs}.ncard ≤ xs.size := by
  classical
  have heq : {x | x ∈ xs} = (xs.toList.toFinset : Set α) := by
    ext x
    simp
  rw [heq, Set.ncard_coe_finset, ← Array.length_toList]
  exact List.toFinset_card_le _

/-- How much room there is for more edges and more calls. This counts double, and what is logged
counts once. -/
noncomputable def roundMeasure (n : Nat) (b : Builder) : Nat :=
  2 * (n - {e | e ∈ b.pag.edges}.ncard) + 2 * (n - b.waiting.ncard) +
    if b.newEdges.isEmpty then 0 else 1

theorem Advances.roundMeasure_lt (h : Advances a a' true) (hkeeps : KeepsConfined p g a a')
    (hb : a'.builder.Confined p g) {n : Nat} (hn : a'.builder.Within n) :
    roundMeasure n a'.builder < roundMeasure n a.builder := by
  let edges := {e | e ∈ a.builder.pag.edges}
  let edges' := {e | e ∈ a'.builder.pag.edges}
  have hedges : edges ⊆ edges' := fun _ he => hkeeps.expands.pag.edge he
  have hfinite : edges'.Finite :=
    (List.finite_toSet a'.pag.edges.toList).subset fun _ he => Array.mem_toList_iff.2 he
  have hle : edges.ncard ≤ edges'.ncard := Set.ncard_le_ncard hedges hfinite
  have hle' : a.builder.waiting.ncard ≤ a'.builder.waiting.ncard :=
    Set.ncard_le_ncard hkeeps.waiting hb.waiting_finite
  show 2 * (n - edges'.ncard) + 2 * (n - a'.builder.waiting.ncard) + _ <
    2 * (n - edges.ncard) + 2 * (n - a.builder.waiting.ncard) + _
  by_cases hlog : a'.builder.newEdges = #[]
  · rw [if_pos (by simp [hlog])]
    rcases h.more rfl with hold | hnew | ⟨x, hx, hno⟩
    · rw [if_neg (by simpa using hold)]
      omega
    · exact absurd hlog hnew
    · have hlt := room_lt hkeeps.waiting hx hno hb.waiting_finite hn.waiting
      omega
  -- There is a new edge.
  · have hsize : 0 < a'.builder.newEdges.size := Array.size_pos_iff.2 hlog
    have hmem := Array.getElem_mem hsize
    have hlt := room_lt hedges (hb.logged hmem) (h.logged hmem) hfinite
      ((ncard_mem_le _).trans hn.edges)
    split <;> split <;> omega

theorem rounds_terminates (hs : s.IsStandard) (ho : RunInvariant s.program scale a)
    (hc : WithinBounds s.program g k a) :
    Terminates s.program.IsMisplaced (KeepsConfined s.program g) (Exceeds objects)
      (fun n => rounds (s.withFuel n) scale n) a
      fun _ _ => True := by
  obtain ⟨bound, hwithin⟩ := Builder.Confined.within s.program g k objects
  refine .loop (I := fun a => RunInvariant s.program scale a ∧ WithinBounds s.program g k a)
    (fun a => roundMeasure bound a.builder) (fun _ _ _ => .throw (Or.inl rfl)) (fun _ _ => rfl) ?_
    ⟨ho, hc⟩
  rintro a ⟨ho, hc⟩
  have horderly : ∀ n, TrySpec (Steps s.program) (round (s.withFuel n) scale) a fun _ a' =>
      RunInvariant s.program scale a' := fun n =>
    (round_spec (s := s.withFuel n) hs ho).mono fun _ _ _ h => h.1
  have hcanonical : ∀ n, TrySpec AnyChange (round (s.withFuel n) scale) a fun _ a' =>
      a'.Canonical := fun n =>
    (round_follows (comparable_withFuel hs _ n) hc.canonical ho).canonical
  refine (((round_terminates hs ho hc).and horderly).and hcanonical).mono ?_
  rintro more a' h ⟨⟨hadvances, -, ho'⟩, -, hcanonical'⟩
  have hc' : WithinBounds s.program g k a' := hc.keep h ho'.valid.grounded hcanonical'
  refine ⟨⟨ho', hc'⟩, ?_⟩
  rintro rfl hin
  exact hadvances.roundMeasure_lt h hc'.confined
    (hwithin _ hc'.confined hc'.k (Nat.le_of_not_lt hin))

/-! ## Whole runs -/

/-- An analysis that has not begun. -/
theorem withinBounds_ofGraph (hg : g.Consistent p) (htargets : g.HasTargets) (c : Config) :
    WithinBounds p g c.kLimit (ofGraph g c) where
  grounded := grounded_ofGraph hg c
  canonical := alike_ofGraph ⟨rfl, rfl, rfl, rfl, List.nil_subset _, List.Subset.refl _,
    fun _ => rfl⟩ rfl rfl
  confined := Builder.confined_ofGraph hg htargets c.backing c.sensitivity c.kLimit
  k := rfl

theorem enterEntries_terminates (hs : s.IsStandard) (hb : a.builder.Confined s.program g)
    (htargets : a.builder.graph.HasTargets) :
    Terminates s.program.IsMisplaced (KeepsConfined s.program g) (Exceeds objects)
      (fun n => enterEntries (s.withFuel n)) a
      fun _ _ => True := by
  refine .get_bind (.forM_any fun f hf a₁ h₁ => .discard (build_any ?_))
  exact enterEntry_terminates hs (h₁.confined hb) (h₁.expands.func (htargets.entry f hf))

theorem solve_terminates (hs : s.IsStandard) (ho : RunInvariant s.program scale a)
    (hc : WithinBounds s.program g k a) (htargets : a.builder.graph.HasTargets) :
    Terminates s.program.IsMisplaced (KeepsConfined s.program g) (Exceeds objects)
      (fun n => solve (s.withFuel n) scale) a
      fun _ _ => True := by
  simp only [solve_eq]
  have horderly : ∀ n, TrySpec (Steps s.program) (enterEntries (s.withFuel n)) a fun _ a' =>
      RunInvariant s.program scale a' := fun n => enterEntries_spec (s := s.withFuel n) hs ho
  have hcanonical : ∀ n, TrySpec AnyChange (enterEntries (s.withFuel n)) a fun _ a' =>
      a'.Canonical := fun n =>
    (Follows.of_respects (enterEntries_respects (comparable_withFuel hs _ n))
      hc.canonical).canonical (p := s.program)
  refine .bind (((enterEntries_terminates hs hc.confined htargets).and horderly).and hcanonical) ?_
  rintro - a₁ h₁ ⟨⟨-, -, ho₁⟩, -, hcanonical₁⟩
  have hc₁ : WithinBounds s.program g k a₁ := hc.keep h₁ ho₁.valid.grounded hcanonical₁
  exact .seq (rounds_terminates hs ho₁ hc₁) fun _ _ _ => .of_tryTerminates (.modify
    (.of_builder rfl fun _ => id) trivial)

end Analysis

end PointsTo
