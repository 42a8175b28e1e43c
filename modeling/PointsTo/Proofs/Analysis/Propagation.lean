import PointsTo.Proofs.Analysis.Visit

/-!
# Facts are passed along edges

A fact is *settled* at a node if it is propagated and not fresh again. An edge is *applied* if what
is settled at its source has got to where the edge takes it (`EdgeApplied`); for an access to a
field this means that the fields of the settled objects are joined. Every edge is applied or logged
as new, and every node with fresh facts is queued. So once no edges are logged and the queue is
empty, all edges are applied to all facts.

There is one exception. While a node is visited, an access through the node may read into the node
itself, as in `x = x.next`. What arrives this way comes too late for the part of the visit that
passes receivers on and joins fields, and counts as settled after it all the same (`SelfRead`).
-/

namespace PointsTo.Analysis

variable {p : Program} {n o : NodeId} {a a' : Analysis}

/-- The fact is propagated, and not offered once more. -/
def Settled (a : Analysis) (n o : NodeId) : Prop :=
  o ∈ a.facts.propagatedOf n ∧ o ∉ a.facts.freshOf n

/-- The object is read into `n` from a field of an object that is found through `n` itself. -/
def SelfRead (a : Analysis) (n o : NodeId) : Prop :=
  ∃ r f key obj, a.Joins n r f key obj ∧ ⟨.load, r, n⟩ ∈ a.pag.edges ∧ o ∈ a.facts.all f

/-- What is settled at the source of an edge has taken the edge. -/
def EdgeApplied (p : Program) (a : Analysis) (e : FlowEdge) : Prop :=
  match e.kind with
  | .address => e.src ∈ a.facts.all e.dst
  | .copy | .interprocedural => ∀ o, a.Settled e.src o → o ∈ a.facts.all e.dst
  | .this => ∀ o, a.Settled e.src o → fitsThis p a.pag e.dst o = true →
      o ∈ a.facts.all e.dst ∨ a.SelfRead e.src o
  | .load => ∀ n key, a.pag.Accesses e.src n key → ∀ o, a.Settled n o →
      ReadJoined a.pag o key e.dst ∨ a.SelfRead n o
  | .write => ∀ n key, a.pag.Accesses e.dst n key → ∀ o, a.Settled n o →
      WriteJoined a.pag o key e.src ∨ a.SelfRead n o

/-- What holds whenever the solver is not in the middle of something. -/
structure Valid (p : Program) (a : Analysis) : Prop where
  grounded : a.Grounded p
  /-- Propagated facts are shown. -/
  shown : ∀ {n o}, o ∈ a.facts.propagatedOf n → o ∈ a.pag.ptsOf n
  edgeApplied : ∀ {e}, e ∈ a.pag.edges → e ∈ a.builder.newEdges ∨ a.EdgeApplied p e

/-- Nodes with fresh facts are in the queue. -/
def Queued (a : Analysis) : Prop :=
  ∀ n o, o ∈ a.facts.freshOf n → n ∈ a.queue

/-! ## What stays -/

theorem SelfRead.mono (h : a.SelfRead n o) (hg : a.pag.Extends a'.pag)
    (hall : ∀ {m o}, o ∈ a.facts.all m → o ∈ a'.facts.all m) : a'.SelfRead n o := by
  obtain ⟨r, f, key, obj, hj, hl, ho⟩ := h
  exact ⟨r, f, key, obj, hj.mono hg hall, hg.edge hl, hall ho⟩

theorem Settled.mem_all (h : a.Settled n o) : o ∈ a.facts.all n :=
  DiffStore.mem_all.2 (Or.inl h.1)

/-- An access that was there already is the access that it was. -/
theorem accesses_back {g g' : Pag} (hg : g.Extends g') {r m : NodeId} {key : FieldKey}
    (hr : r < g.nodes.size) (h : g'.Accesses r m key) : g.Accesses r m key := by
  obtain ⟨node', hn', he, hk⟩ := h
  obtain ⟨node, hn, hgrow⟩ := hg.back hr hn'
  exact ⟨node, hn, by rw [← hgrow.entity]; exact he, by rw [← hgrow.kind]; exact hk⟩

/-- An edge stays applied while nothing more is settled. -/
theorem EdgeApplied.mono {e : FlowEdge} (ha : a.Grounded p) (hg : a.pag.Extends a'.pag)
    (hall : ∀ {m o}, o ∈ a.facts.all m → o ∈ a'.facts.all m)
    (hsettled : ∀ {m o}, a'.Settled m o → a.Settled m o) (he : e ∈ a.pag.edges)
    (h : a.EdgeApplied p e) : a'.EdgeApplied p e := by
  have hobj : ∀ {m o}, a'.Settled m o → o < a.pag.nodes.size := fun ho =>
    lt_of_isObject (ha.object (hsettled ho).mem_all)
  obtain ⟨hsrc, hdst⟩ := ha.sound.edge he
  obtain ⟨kind, src, dst⟩ := e
  cases kind with
  | address => exact hall h
  | copy | interprocedural => exact fun o ho => hall (h o (hsettled ho))
  | this =>
    intro o ho hfits
    rw [fitsThis_congr p hg hdst (hobj ho)] at hfits
    exact (h o (hsettled ho) hfits).imp hall fun hl => hl.mono hg hall
  | load =>
    intro m key hm o ho
    exact (h m key (accesses_back hg hsrc hm) o (hsettled ho)).imp
      (fun hj => hj.mono hg (hobj ho)) fun hl => hl.mono hg hall
  | write =>
    intro m key hm o ho
    exact (h m key (accesses_back hg hdst hm) o (hsettled ho)).imp
      (fun hj => hj.mono hg (hobj ho)) fun hl => hl.mono hg hall

/-- Being brought facts settles none. -/
theorem AddsFresh.settled (h : a.AddsFresh a') {m o : NodeId} (hs : a'.Settled m o) :
    a.Settled m o :=
  ⟨h.propagated m ▸ hs.1, fun hf => hs.2 (h.kept hf)⟩

/-- The builder may change while the facts stay: what it adds is logged. -/
theorem Valid.grow (ha : a.Valid p) (sound : a'.builder.Sound p) (hg : a.pag.Extends a'.pag)
    (pts : ∀ {n o}, o ∈ a'.pag.ptsOf n → o ∈ a.pag.ptsOf n)
    (edges : ∀ {e}, e ∈ a'.pag.edges → e ∈ a.pag.edges ∨ e ∈ a'.builder.newEdges)
    (newEdges : ∀ {e}, e ∈ a.builder.newEdges → e ∈ a'.builder.newEdges)
    (facts : a'.facts = a.facts) : a'.Valid p where
  grounded := ha.grounded.grow hg sound (fun ho => Or.inl (facts ▸ ho))
    fun ho => facts ▸ ha.grounded.exposed (pts ho)
  shown := fun ho => hg.pts (ha.shown (facts ▸ ho))
  edgeApplied := fun {e} he => by
    rcases edges he with he | he
    · refine (ha.edgeApplied he).imp newEdges fun hs => hs.mono ha.grounded hg ?_ ?_ he
      · exact fun ho => facts ▸ ho
      · exact fun ho => ⟨facts ▸ ho.1, facts ▸ ho.2⟩
    · exact Or.inl he

/-! ## During a visit -/

/-- What a node gets while it is visited, it gets late. -/
theorem VisitStep.selfRead (h : VisitStep p n a a') (ha : a.Grounded p)
    (ho : o ∈ a'.facts.freshOf n) : o ∈ a.facts.freshOf n ∨ a'.SelfRead n o := by
  have hv := h.visited
  cases h with
  | pass dst objs passes =>
    rcases (a.pass_receives dst objs).new ho with ho | ⟨-, ho⟩
    · exact Or.inl ho
    · exact Or.inl (passes o ho).1
  | field obj key cloneOf => exact Or.inl ho
  | @read r f d obj key joins load =>
    refine ((a.addCopy_receives f d).new ho).imp_right ?_
    rintro ⟨rfl, -, ho⟩
    exact ⟨r, f, key, obj, joins.mono hv.pag hv.all_kept, hv.pag.edge load, hv.all_kept ho⟩
  | @write r f s obj key joins write =>
    refine ((a.addCopy_receives s f).new ho).imp_right ?_
    rintro ⟨rfl, -, -⟩
    -- The node would be a field of an object, and no access is read through one.
    obtain ⟨node, hn, he, hk⟩ := joins.access
    obtain ⟨base, hbase, hplain⟩ := (ha.sound.fits hn).base hk he
    obtain ⟨⟨field, hfield, -, hentity⟩, -⟩ := Pag.find?_eq_some_iff.1 joins.field
    have heq : some base = some field := hbase.symm.trans hfield
    cases heq
    rw [hentity] at hplain
    cases hplain

theorem VisitSteps.selfRead (h : VisitSteps p n a a') (ha : a.Grounded p)
    (ho : o ∈ a'.facts.freshOf n) : o ∈ a.facts.freshOf n ∨ a'.SelfRead n o := by
  induction h with
  | refl => exact Or.inl ho
  | tail h hstep ih =>
    -- It came with the last step, or it was there before, fresh from the start or late.
    rcases hstep.selfRead (VisitSteps.steps h |>.grounded ha) ho with ho | hl
    · exact (ih ho).imp_right fun hl => hl.mono hstep.visited.pag hstep.visited.all_kept
    · exact Or.inr hl

/-- A copy that is drawn in a visit is applied at once. -/
theorem VisitStep.edgeApplied (h : VisitStep p n a a') {e : FlowEdge}
    (he : e ∈ a'.pag.edges) : e ∈ a.pag.edges ∨ a'.EdgeApplied p e := by
  have hv := h.visited
  have copy : ∀ src dst, a' = a.addCopy src dst → e ∈ a.pag.edges ∨ a'.EdgeApplied p e := by
    rintro src dst rfl
    rw [pag_addCopy] at he
    refine (Pag.mem_edges_addEdge he).imp_right ?_
    rintro ⟨hnew, rfl, -⟩ o ho
    -- A new copy takes along all that is known at its source.
    exact (a.addCopy_receives src dst).known ⟨hnew, (hv.settled ho).mem_all⟩
  cases h with
  | pass dst objs passes => exact Or.inl (by simpa using he)
  | field obj key cloneOf => exact Or.inl (Pag.edges_addNode .. ▸ he)
  | read joins load => exact copy _ _ rfl
  | write joins write => exact copy _ _ rfl

theorem VisitSteps.edgeApplied (h : VisitSteps p n a a') (ha : a.Grounded p) {e : FlowEdge}
    (he : e ∈ a'.pag.edges) : e ∈ a.pag.edges ∨ a'.EdgeApplied p e := by
  induction h with
  | refl => exact Or.inl he
  | tail h hstep ih =>
    have hgrounded := (VisitSteps.steps h).grounded ha
    have hv := hstep.visited
    rcases hstep.edgeApplied he with he₁ | hs
    · exact (ih he₁).imp_right fun hs => hs.mono hgrounded hv.pag hv.all_kept hv.settled he₁
    · exact Or.inr hs

/-- Until facts are settled, a visit keeps everything valid. -/
theorem Valid.visits (ha : a.Valid p) (h : VisitSteps p n a a') : a'.Valid p where
  grounded := h.steps.grounded ha.grounded
  shown := fun ho => h.visited.pag.pts (ha.shown (h.visited.propagated _ ▸ ho))
  edgeApplied := fun {e} he => by
    have hv := h.visited
    rcases h.edgeApplied ha.grounded he with he | hs
    · refine (ha.edgeApplied he).imp (fun hn => ?_) fun hs =>
        hs.mono ha.grounded hv.pag hv.all_kept hv.settled he
      rw [hv.builder]
      exact hn
    · exact Or.inr hs

/-! ## Settling -/

/-- The fresh facts of the node are where its edges take them, those aside that came late. -/
structure FreshApplied (p : Program) (n : NodeId) (a : Analysis) : Prop where
  this : ∀ dst, ⟨.this, n, dst⟩ ∈ a.pag.edges → ∀ o ∈ a.facts.freshOf n,
    fitsThis p a.pag dst o = true → o ∈ a.facts.all dst ∨ a.SelfRead n o
  load : ∀ r key, a.pag.Accesses r n key → ∀ d, ⟨.load, r, d⟩ ∈ a.pag.edges →
    ∀ o ∈ a.facts.freshOf n, ReadJoined a.pag o key d ∨ a.SelfRead n o
  write : ∀ r key, a.pag.Accesses r n key → ∀ s, ⟨.write, s, r⟩ ∈ a.pag.edges →
    ∀ o ∈ a.facts.freshOf n, WriteJoined a.pag o key s ∨ a.SelfRead n o
  copy : ∀ dst, ⟨.copy, n, dst⟩ ∈ a.pag.edges ∨ ⟨.interprocedural, n, dst⟩ ∈ a.pag.edges →
    ∀ o ∈ a.facts.freshOf n, o ∈ a.facts.all dst

/-- Settling adds the fresh facts of the node to what is settled. -/
theorem settled_settle {m o : NodeId} (h : (a.settle n).Settled m o) :
    a.Settled m o ∨ m = n ∧ o ∈ a.facts.freshOf n := by
  obtain ⟨hp, hf⟩ := h
  rw [facts_settle, DiffStore.mem_propagatedOf_flush] at hp
  rw [facts_settle, DiffStore.mem_freshOf_flush] at hf
  by_cases hm : n = m
  · subst hm
    by_cases ho : o ∈ a.facts.freshOf n
    · exact Or.inr ⟨rfl, ho⟩
    · exact Or.inl ⟨hp.resolve_right fun h => ho h.2, ho⟩
  -- Other nodes are not touched.
  · exact Or.inl ⟨hp.resolve_right fun h => hm h.1, fun ho => hf ⟨hm, ho⟩⟩

/-- Once the facts are where they have to be, the node can be settled. -/
theorem edgeApplied_settle {e : FlowEdge} (ha : a.Grounded p) (hr : FreshApplied p n a)
    (he : e ∈ a.pag.edges) (h : a.EdgeApplied p e) : (a.settle n).EdgeApplied p e := by
  have hg : a.pag.Extends (a.settle n).pag := by
    rw [pag_settle]
    exact a.pag.addPts_extends n _
  have hall : ∀ {m o}, o ∈ a.facts.all m → o ∈ (a.settle n).facts.all m := fun {m o} ho => by
    rw [facts_settle, DiffStore.mem_all_flush]
    exact ho
  have hlate : ∀ {m o}, a.SelfRead m o → (a.settle n).SelfRead m o := fun hl => hl.mono hg hall
  have hfresh : ∀ {o}, o ∈ a.facts.freshOf n → o < a.pag.nodes.size := fun ho =>
    lt_of_isObject (ha.object (DiffStore.mem_all.2 (Or.inr ho)))
  have hold : ∀ {m o}, a.Settled m o → o < a.pag.nodes.size := fun ho =>
    lt_of_isObject (ha.object ho.mem_all)
  obtain ⟨hsrc, hdst⟩ := ha.sound.edge he
  obtain ⟨kind, src, dst⟩ := e
  cases kind with
  | address => exact hall h
  | copy =>
    intro o ho
    rcases settled_settle ho with ho | ⟨rfl, ho⟩
    · exact hall (h o ho)
    · exact hall (hr.copy dst (Or.inl he) o ho)
  | interprocedural =>
    intro o ho
    rcases settled_settle ho with ho | ⟨rfl, ho⟩
    · exact hall (h o ho)
    · exact hall (hr.copy dst (Or.inr he) o ho)
  | this =>
    intro o ho hfits
    rcases settled_settle ho with ho | ⟨rfl, ho⟩
    · rw [fitsThis_congr p hg hdst (hold ho)] at hfits
      exact (h o ho hfits).imp hall hlate
    · rw [fitsThis_congr p hg hdst (hfresh ho)] at hfits
      exact (hr.this dst he o ho hfits).imp hall hlate
  | load =>
    intro m key hm o ho
    replace hm := accesses_back hg hsrc hm
    rcases settled_settle ho with ho | ⟨rfl, ho⟩
    · exact (h m key hm o ho).imp (fun hj => hj.mono hg (hold ho)) hlate
    · exact (hr.load src key hm dst he o ho).imp (fun hj => hj.mono hg (hfresh ho)) hlate
  | write =>
    intro m key hm o ho
    replace hm := accesses_back hg hdst hm
    rcases settled_settle ho with ho | ⟨rfl, ho⟩
    · exact (h m key hm o ho).imp (fun hj => hj.mono hg (hold ho)) hlate
    · exact (hr.write dst key hm src he o ho).imp (fun hj => hj.mono hg (hfresh ho)) hlate

theorem Valid.settle (ha : a.Valid p) (hr : FreshApplied p n a) (hn : n < a.pag.nodes.size) :
    (a.settle n).Valid p where
  grounded := (Step.settle n).grounded ha.grounded
  shown := fun {m o} ho => by
    rw [facts_settle, DiffStore.mem_propagatedOf_flush] at ho
    rw [pag_settle, Pag.mem_ptsOf_addPts]
    rcases ho with ho | ⟨rfl, ho⟩
    · exact Or.inl (ha.shown ho)
    · exact Or.inr ⟨rfl, hn, ho⟩
  edgeApplied := fun {e} he => by
    rw [pag_settle] at he
    rw [builder_settle]
    exact (ha.edgeApplied he).imp_right (edgeApplied_settle ha.grounded hr he)

/-! ## A whole visit -/

/-- Everything in a visit that comes before settling. -/
def preVisit (p : Program) (a : Analysis) (n : NodeId) : Analysis :=
  ((passThis p a n).joinFields n).passCopies n

theorem visit_eq (p : Program) (a : Analysis) (n : NodeId) :
    visit p a n = (preVisit p a n).settle n :=
  rfl

theorem preVisit_visitSteps (ha : a.Grounded p) : VisitSteps p n a (preVisit p a n) := by
  have h₁ := (passThis_passSteps (p := p) (n := n) (a := a)).1.steps
  have h₂ := (joinFields_visitSteps (n := n) (h₁.steps.grounded ha)).1
  exact trans_of (VisitSteps p n) h₁ (trans_of (VisitSteps p n) h₂ passCopies_passSteps.1.steps)

/-- An edge of another kind than a copy was there before the visit. -/
theorem Visited.edge_back (h : Visited n a a') {e : FlowEdge} (hk : e.kind ≠ .copy)
    (he : e ∈ a'.pag.edges) : e ∈ a.pag.edges :=
  (h.edges he).resolve_right fun hd => hk hd.1

theorem preVisit_freshApplied (ha : a.Grounded p) : FreshApplied p n (preVisit p a n) := by
  obtain ⟨h₁, hthis⟩ := passThis_passSteps (p := p) (n := n) (a := a)
  have ha₁ := h₁.steps.steps.grounded ha
  obtain ⟨h₂, hjoin⟩ := joinFields_visitSteps (n := n) ha₁
  have ha₂ := h₂.steps.grounded ha₁
  obtain ⟨h₃, hcopy⟩ := passCopies_passSteps (p := p) (n := n) (a := (passThis p a n).joinFields n)
  have hv := (preVisit_visitSteps (n := n) ha).visited
  have hv₂₃ := h₂.visited.trans h₃.steps.visited
  have hlate : ∀ o ∈ (preVisit p a n).facts.freshOf n,
      o ∈ a.facts.freshOf n ∨ (preVisit p a n).SelfRead n o :=
    fun o ho => (preVisit_visitSteps ha).selfRead ha ho
  have hobj : ∀ o ∈ a.facts.freshOf n, a.pag.isObject o = true :=
    fun o ho => ha.object (DiffStore.mem_all.2 (Or.inr ho))
  refine ⟨fun dst he o ho hfits => ?_, fun r key hr d he o ho => ?_, fun r key hr s he o ho => ?_,
    fun dst he o ho => ?_⟩
  · rcases hlate o ho with ho | hl
    · replace he : ⟨.this, n, dst⟩ ∈ a.pag.edges := hv.edge_back (nomatch ·) he
      rw [fitsThis_congr p hv.pag (ha.sound.edge he).2 (lt_of_isObject (hobj o ho))] at hfits
      exact Or.inl (hv₂₃.all_kept (hthis dst he o ho hfits))
    · exact Or.inr hl
  · rcases hlate o ho with ho | hl
    · have hjoined := (hjoin o (h₁.steps.visited.kept ho) r key (hv₂₃.accesses hr)).1 d
        (hv₂₃.edge_back (nomatch ·) he)
      have hlt := lt_of_isObject ((h₁.steps.visited.trans h₂.visited).pag.isObject (hobj o ho))
      exact Or.inl (hjoined.mono h₃.steps.visited.pag hlt)
    · exact Or.inr hl
  · rcases hlate o ho with ho | hl
    · have hjoined := (hjoin o (h₁.steps.visited.kept ho) r key (hv₂₃.accesses hr)).2 s
        (hv₂₃.edge_back (nomatch ·) he)
      have hlt := lt_of_isObject ((h₁.steps.visited.trans h₂.visited).pag.isObject (hobj o ho))
      exact Or.inl (hjoined.mono h₃.steps.visited.pag hlt)
    · exact Or.inr hl
  -- The copies come last, so they take everything that is fresh, however late it came.
  · have hpag : (preVisit p a n).pag = ((passThis p a n).joinFields n).pag := h₃.pag
    rw [hpag] at he
    exact hcopy dst he o (h₃.fresh o ho)

theorem visit_steps (ha : a.Grounded p) : Steps p a (visit p a n) := by
  rw [visit_eq]
  exact (preVisit_visitSteps ha).steps.tail (.settle n)

theorem Valid.visit (ha : a.Valid p) (hn : n < a.pag.nodes.size) : (visit p a n).Valid p := by
  have h := preVisit_visitSteps (n := n) ha.grounded
  rw [visit_eq]
  exact (ha.visits h).settle (preVisit_freshApplied ha.grounded) (h.visited.pag.lt hn)

/-- After the visit the node has nothing fresh, and whatever has is queued. -/
theorem queued_visit (ha : a.Grounded p)
    (hq : ∀ m o, o ∈ a.facts.freshOf m → m ≠ n → m ∈ a.queue) : (visit p a n).Queued := by
  have hv := (preVisit_visitSteps (n := n) ha).visited
  intro m o ho
  rw [visit_eq] at ho ⊢
  rw [facts_settle, DiffStore.mem_freshOf_flush] at ho
  rw [queue_settle]
  obtain ⟨hne, ho⟩ := ho
  rcases hv.queued ho with ho | hm
  · exact hv.queue (hq m o ho (Ne.symm hne))
  · exact hm

end PointsTo.Analysis
