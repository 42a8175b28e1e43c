import PointsTo.Proofs.Analysis.Steps

/-!
# What a visit does

A visit of a node passes facts on and draws copies. It takes nothing back, propagates nothing before
it is done, draws no other edges than the copies that accesses ask for, and queues every node that
it brings something to (`Visited`).

What it does get done is stated for each of its parts: receivers go along `this` edges
(`passThis_passSteps`), every object with fields that are accessed through the node has those fields
joined (`joinFields_visitSteps`), and everything goes along the copies (`passCopies_passSteps`).
-/

namespace PointsTo.Analysis

variable {p : Program} {n : NodeId} {a a' : Analysis}

/-- The copy is one that an access through `n` asks for: it reads a field of an object at `n`, or it
writes one. -/
def FromAccess (a : Analysis) (n : NodeId) (e : FlowEdge) : Prop :=
  e.kind = .copy ∧ ∃ r f key obj, a.Joins n r f key obj ∧
    (e.src = f ∧ ⟨.load, r, e.dst⟩ ∈ a.pag.edges ∨ e.dst = f ∧ ⟨.write, e.src, r⟩ ∈ a.pag.edges)

/-- The analysis later in a visit of `n`. -/
structure Visited (n : NodeId) (a a' : Analysis) : Prop extends AddsFresh a a' where
  pag : a.pag.Extends a'.pag
  pts : ∀ {m o}, o ∈ a'.pag.ptsOf m → o ∈ a.pag.ptsOf m
  sites : ∀ {m site}, site ∈ a'.pag.sitesOf m → site ∈ a.pag.sitesOf m
  edges : ∀ {e}, e ∈ a'.pag.edges → e ∈ a.pag.edges ∨ a'.FromAccess n e
  /-- The only new nodes are fields of objects. -/
  accesses : ∀ {r m key}, a'.pag.Accesses r m key → a.pag.Accesses r m key
  builder : a'.builder = { a.builder with pag := a'.pag }

theorem Joins.mono {r f obj : NodeId} {key : FieldKey} (h : a.Joins n r f key obj)
    (hg : a.pag.Extends a'.pag) (hall : ∀ {m o}, o ∈ a.facts.all m → o ∈ a'.facts.all m) :
    a'.Joins n r f key obj where
  access := hg.accesses h.access
  fact := hall h.fact
  object := hg.isObject h.object
  field := hg.fieldNode? (lt_of_isObject h.object) h.field

theorem FromAccess.mono {e : FlowEdge} (h : a.FromAccess n e) (hg : a.pag.Extends a'.pag)
    (hall : ∀ {m o}, o ∈ a.facts.all m → o ∈ a'.facts.all m) : a'.FromAccess n e := by
  obtain ⟨hk, r, f, key, obj, hj, he⟩ := h
  exact ⟨hk, r, f, key, obj, hj.mono hg hall,
    he.imp (fun h => ⟨h.1, hg.edge h.2⟩) fun h => ⟨h.1, hg.edge h.2⟩⟩

namespace Visited

theorem rfl : Visited n a a where
  toAddsFresh := .rfl
  pag := .rfl
  pts h := h
  sites h := h
  edges := Or.inl
  accesses h := h
  builder := .refl _

theorem trans {a₁ a₂ a₃ : Analysis} (h : Visited n a₁ a₂) (h' : Visited n a₂ a₃) :
    Visited n a₁ a₃ where
  toAddsFresh := h.toAddsFresh.trans h'.toAddsFresh
  pag := h.pag.trans h'.pag
  pts ho := h.pts (h'.pts ho)
  sites hs := h.sites (h'.sites hs)
  edges he := by
    rcases h'.edges he with he | he
    · exact (h.edges he).imp_right fun hd => hd.mono h'.pag h'.all_kept
    · exact Or.inr he
  accesses hr := h.accesses (h'.accesses hr)
  builder := by rw [h'.builder, h.builder]

/-- Facts are received while the graph stays as it is, up to drawn edges. -/
theorem of_receives {m : NodeId} {P : NodeId → Prop} (h : a.ReceivesFacts m P a')
    (nodes : a'.pag.nodes = a.pag.nodes) (builder : a'.builder = { a.builder with pag := a'.pag })
    (kept : ∀ {e}, e ∈ a.pag.edges → e ∈ a'.pag.edges)
    (edges : ∀ {e}, e ∈ a'.pag.edges → e ∈ a.pag.edges ∨ a'.FromAccess n e) : Visited n a a' where
  toAddsFresh := h.toAddsFresh
  pag := ⟨fun {k node} hk => ⟨node, by rw [Pag.node?_congr nodes]; exact hk, .rfl⟩, kept⟩
  pts {k o} ho := by rwa [Pag.ptsOf, Pag.node?_congr nodes] at ho
  sites {k site} hs := by rwa [Pag.sitesOf, Pag.node?_congr nodes] at hs
  edges := edges
  accesses hr := by
    obtain ⟨node, hn, he, hk⟩ := hr
    rw [Pag.node?_congr nodes] at hn
    exact ⟨node, hn, he, hk⟩
  builder := builder

end Visited

theorem visited_addCopy {src dst : NodeId}
    (drawn : (a.addCopy src dst).FromAccess n ⟨.copy, src, dst⟩) :
    Visited n a (a.addCopy src dst) := by
  refine .of_receives (a.addCopy_receives src dst) (by simp) ?_ (fun he => ?_) fun he => ?_
  · rw [builder_addCopy, pag_addCopy]
  · rw [pag_addCopy]
    exact (a.pag.addEdge_extends .copy src dst).edge he
  · rw [pag_addCopy] at he
    refine (Pag.mem_edges_addEdge he).imp_right ?_
    rintro ⟨-, rfl, -⟩
    exact drawn

/-- Drawing a copy keeps what asks for it. -/
theorem joins_addCopy {r f obj src dst : NodeId} {key : FieldKey} (h : a.Joins n r f key obj) :
    (a.addCopy src dst).Joins n r f key obj :=
  h.mono (by rw [pag_addCopy]; exact a.pag.addEdge_extends .copy src dst)
    (a.addCopy_receives src dst).all_kept

theorem VisitStep.visited (h : VisitStep p n a a') : Visited n a a' := by
  cases h with
  | pass dst objs passes =>
    exact .of_receives (a.pass_receives dst objs) (by simp) (by simp [pag]) (by simp) (by simp_all)
  | field obj key cloneOf =>
    exact {
      toAddsFresh := .of_same rfl rfl rfl
      pag := Pag.addNode_extends ..
      pts := fun ho => Pag.mem_ptsOf_addNode.1 ho
      sites := fun hs => Pag.mem_sitesOf_addNode.1 hs
      edges := fun he => Or.inl (Pag.edges_addNode .. ▸ he)
      accesses := fun hr => by
        obtain ⟨node, hn, he, hk⟩ := hr
        rcases Pag.node?_addNode hn with hn | ⟨-, rfl⟩
        · exact ⟨node, hn, he, hk⟩
        · cases he
      builder := .refl _ }
  | read joins load =>
    refine visited_addCopy ⟨.refl _, _, _, _, _, joins_addCopy joins, Or.inl ⟨.refl _, ?_⟩⟩
    rw [pag_addCopy]
    exact (a.pag.addEdge_extends .copy _ _).edge load
  | write joins write =>
    refine visited_addCopy ⟨.refl _, _, _, _, _, joins_addCopy joins, Or.inr ⟨.refl _, ?_⟩⟩
    rw [pag_addCopy]
    exact (a.pag.addEdge_extends .copy _ _).edge write

theorem VisitSteps.visited (h : VisitSteps p n a a') : Visited n a a' := by
  induction h with
  | refl => exact .rfl
  | tail _ hstep ih => exact ih.trans hstep.visited

/-! ## Passing on -/

theorem mem_acceptedBy {g : Pag} {this o : NodeId} {objs : ObjSet} :
    o ∈ acceptedBy p g this objs ↔ o ∈ objs ∧ fitsThis p g this o = true := by
  unfold acceptedBy
  rw [ObjSet.mem_eraseAll]
  simp only [List.mem_filter, Bool.not_eq_true', not_and, Bool.not_eq_false, ← ObjSet.mem_def]
  constructor
  · rintro ⟨ho, hfits⟩
    exact ⟨ho, hfits ho⟩
  · rintro ⟨ho, hfits⟩
    exact ⟨ho, fun _ => hfits⟩

/-- Facts that are fresh at the node are passed on. This leaves the graph as it is, and brings
nothing fresh to the node itself. -/
structure PassSteps (p : Program) (n : NodeId) (a a' : Analysis) : Prop where
  steps : VisitSteps p n a a'
  pag : a'.pag = a.pag
  fresh : ∀ o ∈ a'.facts.freshOf n, o ∈ a.facts.freshOf n

instance (p : Program) (n : NodeId) : IsPreorder Analysis (PassSteps p n) where
  refl a := ⟨refl_of (VisitSteps p n) a, rfl, fun _ h => h⟩
  trans _ _ _ h h' := ⟨trans_of (VisitSteps p n) h.steps h'.steps, h'.pag.trans h.pag,
    fun o ho => h.fresh o (h'.fresh o ho)⟩

/-- Facts that are fresh at the node go to many others. -/
theorem foldl_pass (dsts : List NodeId) (objs : Analysis → NodeId → ObjSet)
    (Q : NodeId → NodeId → Prop)
    (passes : ∀ dst ∈ dsts, ∀ a', PassSteps p n a a' →
      ∀ o ∈ objs a' dst, o ∈ a'.facts.freshOf n ∧ a'.pag.Passes p o n dst)
    (enough : ∀ dst ∈ dsts, ∀ a', PassSteps p n a a' → ∀ o, Q dst o → o ∈ objs a' dst) :
    PassSteps p n a (dsts.foldl (fun a dst => a.pass (objs a dst) dst) a) ∧
      ∀ dst ∈ dsts, ∀ o, Q dst o →
        o ∈ (dsts.foldl (fun a dst => a.pass (objs a dst) dst) a).facts.all dst := by
  refine foldl_spec (R := PassSteps p n)
    (P := fun dst (a' : Analysis) => ∀ o, Q dst o → o ∈ a'.facts.all dst)
    (fun _ _ _ h hq o ho => h.steps.visited.all_kept (hq o ho)) fun dst hdst a' h' => ?_
  have hpasses := passes dst hdst a' h'
  have hrec := a'.pass_receives dst (objs a' dst)
  refine ⟨⟨.single (.pass dst _ hpasses), a'.pag_pass dst _, fun o ho => ?_⟩, fun o ho => ?_⟩
  · rcases hrec.new ho with ho | ⟨-, ho⟩
    · exact ho
    · exact (hpasses o ho).1
  · exact hrec.known (enough dst hdst a' h' o ho)

/-- Receivers that fit get to the receivers of the callees. -/
theorem passThis_passSteps :
    PassSteps p n a (passThis p a n) ∧
      ∀ dst, ⟨.this, n, dst⟩ ∈ a.pag.edges → ∀ o ∈ a.facts.freshOf n,
        fitsThis p a.pag dst o = true → o ∈ (passThis p a n).facts.all dst := by
  have hloop := foldl_pass (p := p) (n := n) (a := a) (a.pag.outEdges .this n)
    (fun a' dst => acceptedBy p a'.pag dst (a.facts.freshOf n))
    (fun dst o => o ∈ a.facts.freshOf n ∧ fitsThis p a.pag dst o = true) ?_ ?_
  · obtain ⟨hsteps, hpost⟩ := hloop
    exact ⟨hsteps, fun dst hdst o ho hfits => hpost dst (Pag.mem_outEdges.2 hdst) o ⟨ho, hfits⟩⟩
  · intro dst hdst a' h' o ho
    obtain ⟨ho, hfits⟩ := mem_acceptedBy.1 ho
    have hedge := h'.steps.visited.pag.edge (Pag.mem_outEdges.1 hdst)
    exact ⟨h'.steps.visited.kept ho, Or.inr (Or.inr ⟨hedge, hfits⟩)⟩
  · rintro dst hdst a' h' o ⟨ho, hfits⟩
    exact mem_acceptedBy.2 ⟨ho, by rw [h'.pag]; exact hfits⟩

/-- Everything gets to where the copies lead. -/
theorem passCopies_passSteps :
    PassSteps p n a (a.passCopies n) ∧
      ∀ dst, ⟨.copy, n, dst⟩ ∈ a.pag.edges ∨ ⟨.interprocedural, n, dst⟩ ∈ a.pag.edges →
        ∀ o ∈ a.facts.freshOf n, o ∈ (a.passCopies n).facts.all dst := by
  have targets : ∀ dst, dst ∈ a.pag.outEdges .copy n ++ a.pag.outEdges .interprocedural n ↔
      ⟨.copy, n, dst⟩ ∈ a.pag.edges ∨ ⟨.interprocedural, n, dst⟩ ∈ a.pag.edges := fun dst => by
    rw [List.mem_append, Pag.mem_outEdges, Pag.mem_outEdges]
  have hloop := foldl_pass (p := p) (n := n) (a := a)
    (a.pag.outEdges .copy n ++ a.pag.outEdges .interprocedural n) (fun _ _ => a.facts.freshOf n)
    (fun _ o => o ∈ a.facts.freshOf n) ?_ fun _ _ _ _ _ ho => ho
  · obtain ⟨hsteps, hpost⟩ := hloop
    exact ⟨hsteps, fun dst hdst o ho => hpost dst ((targets dst).2 hdst) o ho⟩
  · intro dst hdst a' h' o ho
    refine ⟨h'.steps.visited.kept ho, ?_⟩
    rcases (targets dst).1 hdst with he | he
    · exact Or.inl (h'.steps.visited.pag.edge he)
    · exact Or.inr (Or.inl (h'.steps.visited.pag.edge he))

/-! ## Joining fields -/

/-- There is a copy from the field of the object. -/
def ReadJoined (g : Pag) (obj : NodeId) (key : FieldKey) (dst : NodeId) : Prop :=
  ∃ f, g.fieldNode? obj key = some f ∧ ⟨.copy, f, dst⟩ ∈ g.edges

/-- There is a copy to the field of the object. -/
def WriteJoined (g : Pag) (obj : NodeId) (key : FieldKey) (src : NodeId) : Prop :=
  ∃ f, g.fieldNode? obj key = some f ∧ ⟨.copy, src, f⟩ ∈ g.edges

/-- Everything that is read through an access, or written, is joined with the field. -/
def AccessJoined (a a' : Analysis) (r : NodeId) (key : FieldKey) (obj : NodeId) : Prop :=
  (∀ d, ⟨.load, r, d⟩ ∈ a.pag.edges → ReadJoined a'.pag obj key d) ∧
    ∀ s, ⟨.write, s, r⟩ ∈ a.pag.edges → WriteJoined a'.pag obj key s

theorem ReadJoined.mono {g g' : Pag} (hg : g.Extends g') {obj dst : NodeId} {key : FieldKey}
    (ho : obj < g.nodes.size) (h : ReadJoined g obj key dst) : ReadJoined g' obj key dst := by
  obtain ⟨f, hf, he⟩ := h
  exact ⟨f, hg.fieldNode? ho hf, hg.edge he⟩

theorem WriteJoined.mono {g g' : Pag} (hg : g.Extends g') {obj src : NodeId} {key : FieldKey}
    (ho : obj < g.nodes.size) (h : WriteJoined g obj key src) : WriteJoined g' obj key src := by
  obtain ⟨f, hf, he⟩ := h
  exact ⟨f, hg.fieldNode? ho hf, hg.edge he⟩

theorem AccessJoined.mono {a₁ a₂ : Analysis} {r obj : NodeId} {key : FieldKey}
    (hg : a₁.pag.Extends a₂.pag) (ho : obj < a₁.pag.nodes.size) (h : AccessJoined a a₁ r key obj) :
    AccessJoined a a₂ r key obj :=
  ⟨fun d hd => (h.1 d hd).mono hg ho, fun s hs => (h.2 s hs).mono hg ho⟩

theorem AccessJoined.of_extends {a₁ a₂ : Analysis} {r obj : NodeId} {key : FieldKey}
    (hg : a.pag.Extends a₁.pag) (h : AccessJoined a₁ a₂ r key obj) : AccessJoined a a₂ r key obj :=
  ⟨fun d hd => h.1 d (hg.edge hd), fun s hs => h.2 s (hg.edge hs)⟩

/-- The copies from a field to everything it is read into. -/
theorem foldl_read {r f obj : NodeId} {key : FieldKey} (ha : a.Grounded p)
    (joins : a.Joins n r f key obj) {dsts : List NodeId}
    (loads : ∀ d ∈ dsts, ⟨.load, r, d⟩ ∈ a.pag.edges) :
    VisitSteps p n a (dsts.foldl (fun a d => a.addCopy f d) a) ∧
      ∀ d ∈ dsts, ⟨.copy, f, d⟩ ∈ (dsts.foldl (fun a d => a.addCopy f d) a).pag.edges := by
  refine foldl_spec (R := VisitSteps p n)
    (P := fun d (a' : Analysis) => ⟨.copy, f, d⟩ ∈ a'.pag.edges)
    (fun _ _ _ h he => h.visited.pag.edge he) fun d hd a' h' => ?_
  have hg := h'.visited.pag
  have hload := hg.edge (loads d hd)
  refine ⟨.single (.read (joins.mono hg h'.visited.all_kept) hload), ?_⟩
  rw [pag_addCopy]
  exact Pag.mem_edges_of_addEdge (hg.lt (Pag.lt_of_fieldNode? joins.field))
    (hg.lt (ha.sound.edge (loads d hd)).2)

/-- The copies to a field from everything that is written to it. -/
theorem foldl_write {r f obj : NodeId} {key : FieldKey} (ha : a.Grounded p)
    (joins : a.Joins n r f key obj) {srcs : List NodeId}
    (writes : ∀ s ∈ srcs, ⟨.write, s, r⟩ ∈ a.pag.edges) :
    VisitSteps p n a (srcs.foldl (fun a s => a.addCopy s f) a) ∧
      ∀ s ∈ srcs, ⟨.copy, s, f⟩ ∈ (srcs.foldl (fun a s => a.addCopy s f) a).pag.edges := by
  refine foldl_spec (R := VisitSteps p n)
    (P := fun s (a' : Analysis) => ⟨.copy, s, f⟩ ∈ a'.pag.edges)
    (fun _ _ _ h he => h.visited.pag.edge he) fun s hs a' h' => ?_
  have hg := h'.visited.pag
  have hwrite := hg.edge (writes s hs)
  refine ⟨.single (.write (joins.mono hg h'.visited.all_kept) hwrite), ?_⟩
  rw [pag_addCopy]
  exact Pag.mem_edges_of_addEdge (hg.lt (ha.sound.edge (writes s hs)).1)
    (hg.lt (Pag.lt_of_fieldNode? joins.field))

theorem joinField_visitSteps {obj r : NodeId} {key : FieldKey} (ha : a.Grounded p)
    (access : a.pag.Accesses r n key) (fact : obj ∈ a.facts.all n)
    (object : a.pag.isObject obj = true) :
    VisitSteps p n a (joinField obj a r) ∧ AccessJoined a (joinField obj a r) r key obj := by
  obtain ⟨node, hnode, hplain, hkind⟩ := access
  -- The node of the field is made first.
  have hfield : VisitStep p n a _ := .field obj key (some r)
  have hfound := Build.fieldNode?_run (lt_of_isObject object) key (some r)
  have ha₁ := hfield.grounded ha
  have hv₁ := hfield.visited
  unfold joinField
  rw [hnode, Option.bind_some, hkind]
  dsimp only
  generalize (Build.fieldNode obj key (some r)).run a.builder = run at *
  obtain ⟨f, builder⟩ := run
  have joins : ({ a with builder } : Analysis).Joins n r f key obj :=
    ⟨hv₁.pag.accesses ⟨node, hnode, hplain, hkind⟩, fact, hv₁.pag.isObject object, hfound⟩
  -- Then what is read from it, and what is written to it.
  obtain ⟨h₂, hloads⟩ := foldl_read ha₁ joins fun d (hd : d ∈ a.pag.outEdges .load r) =>
    hv₁.pag.edge (Pag.mem_outEdges.1 hd)
  have hv₂ := h₂.visited
  obtain ⟨h₃, hwrites⟩ := foldl_write (h₂.steps.grounded ha₁) (joins.mono hv₂.pag hv₂.all_kept)
    fun s (hs : s ∈ a.pag.inEdges .write r) =>
      hv₂.pag.edge (hv₁.pag.edge (Pag.mem_inEdges.1 hs))
  have hv₃ := h₃.visited
  have hf := (joins.mono (hv₂.pag.trans hv₃.pag) (hv₂.trans hv₃).all_kept).field
  refine ⟨trans_of (VisitSteps p n) (.single hfield) (trans_of (VisitSteps p n) h₂ h₃), ?_, ?_⟩
  · intro d hd
    exact ⟨f, hf, hv₃.pag.edge (hloads d (Pag.mem_outEdges.2 hd))⟩
  · intro s hs
    exact ⟨f, hf, hwrites s (Pag.mem_inEdges.2 hs)⟩

/-- One object: its fields are joined with all accesses through the node. -/
theorem foldl_joinField {obj : NodeId} (ha : a.Grounded p) (fact : obj ∈ a.facts.all n)
    {refs : List NodeId} (hrefs : ∀ r ∈ refs, ∃ key, a.pag.Accesses r n key) :
    VisitSteps p n a (refs.foldl (joinField obj) a) ∧
      ∀ r ∈ refs, (refs.foldl (joinField obj) a).pag.isObject obj = true ∧
        ∀ key, a.pag.Accesses r n key →
        AccessJoined a (refs.foldl (joinField obj) a) r key obj := by
  have object := ha.object fact
  refine foldl_spec (R := VisitSteps p n) (P := fun r (a' : Analysis) =>
    a'.pag.isObject obj = true ∧ ∀ key, a.pag.Accesses r n key → AccessJoined a a' r key obj)
    (fun r a₁ a₂ h hj => ?_) fun r hr a' h' => ?_
  · have hg := h.visited.pag
    exact ⟨hg.isObject hj.1, fun key hk => (hj.2 key hk).mono hg (lt_of_isObject hj.1)⟩
  -- What holds of an access before the loop still does when its turn comes.
  · have hv := h'.visited
    have hjoin : ∀ key, a.pag.Accesses r n key → VisitSteps p n a' (joinField obj a' r) ∧
        AccessJoined a' (joinField obj a' r) r key obj := fun key hk =>
      joinField_visitSteps (h'.steps.grounded ha) (hv.pag.accesses hk) (hv.all_kept fact)
        (hv.pag.isObject object)
    obtain ⟨key, hk⟩ := hrefs r hr
    have hsteps := (hjoin key hk).1
    refine ⟨hsteps, hsteps.visited.pag.isObject (hv.pag.isObject object), fun key' hk' => ?_⟩
    exact (hjoin key' hk').2.of_extends hv.pag

/-- All fields of fresh objects that are accessed through the node are joined. -/
theorem joinFields_visitSteps (ha : a.Grounded p) :
    VisitSteps p n a (a.joinFields n) ∧
      ∀ obj ∈ a.facts.freshOf n, ∀ r key, a.pag.Accesses r n key →
        AccessJoined a (a.joinFields n) r key obj := by
  have refs : ∀ r key, a.pag.Accesses r n key → r ∈ a.pag.refsOf n := fun r key hr =>
    Pag.mem_refsOf.2 ⟨ha.sound.older hr, key, hr⟩
  unfold joinFields
  dsimp only
  split
  · rename_i hempty
    refine ⟨refl_of (VisitSteps p n) a, fun obj _ r key hr => ?_⟩
    have hmem := refs r key hr
    rw [List.isEmpty_iff.1 hempty] at hmem
    cases hmem
  -- The loop is over the objects that were fresh at first. Those that come meanwhile are left out.
  · have hloop := foldl_spec (R := VisitSteps p n) (s := a)
      (f := fun a' obj =>
        if a'.pag.isObject obj then (a.pag.refsOf n).foldl (joinField obj) a' else a')
      (P := fun obj (a' : Analysis) =>
        ∀ r key, a.pag.Accesses r n key → a'.pag.isObject obj = true ∧ AccessJoined a a' r key obj)
      (fun obj a₁ a₂ h hj => ?_) fun obj (hobj : obj ∈ (a.facts.freshOf n).toList) a' h' => ?_
    · exact ⟨hloop.1, fun obj ho r key hr => (hloop.2 obj ho r key hr).2⟩
    · intro r key hr
      have hg := h.visited.pag
      obtain ⟨ho, hjoined⟩ := hj r key hr
      exact ⟨hg.isObject ho, hjoined.mono hg (lt_of_isObject ho)⟩
    · have hv := h'.visited
      have fact : obj ∈ a.facts.all n := DiffStore.mem_all.2 (Or.inr hobj)
      obtain ⟨hsteps, hjoined⟩ := foldl_joinField (h'.steps.grounded ha) (hv.all_kept fact)
        fun r (hr : r ∈ a.pag.refsOf n) => by
          obtain ⟨-, key, hk⟩ := Pag.mem_refsOf.1 hr
          exact ⟨key, hv.pag.accesses hk⟩
      rw [if_pos (hv.pag.isObject (ha.object fact))]
      refine ⟨hsteps, fun r key hr => ?_⟩
      obtain ⟨ho, hj⟩ := hjoined r (refs r key hr)
      exact ⟨ho, (hj key (hv.pag.accesses hr)).of_extends hv.pag⟩

end PointsTo.Analysis
