import Mathlib.Data.Set.Card
import PointsTo.Proofs.Confined.States
import PointsTo.Proofs.Fuel

/-!
# How large a confined builder can get

A confined builder has as many methods as the program names, contexts that are sequences of at most
`k` items, and one node for each context and entity. Objects are among the items and among what
`bind` makes functions of, so all of this is bounded by the number of objects (`Confined.within`).

In a program that assigns no result of `bind`, with contexts that are not made of objects, the
number of objects itself is bounded (`Confined.card_objects_le`).
-/

namespace PointsTo

/-- Things that are told apart by a finite set are not many. -/
theorem length_le_ncard {α : Type} {xs : List α} (hxs : xs.Nodup) {S : Set α} (hS : S.Finite)
    (h : ∀ x ∈ xs, x ∈ S) : xs.length ≤ S.ncard := by
  classical
  rw [← List.toFinset_card_of_nodup hxs, ← Set.ncard_coe_finset]
  exact Set.ncard_le_ncard (fun x hx => h x (by simpa using hx)) hS

theorem Distinct.size_le_ncard {α : Type} {table : Array α} (hd : Distinct table) {S : Set α}
    (hS : S.Finite) (h : ∀ {i : Nat} {x}, table[i]? = some x → x ∈ S) : table.size ≤ S.ncard := by
  have hnodup : table.toList.Nodup := by
    refine List.nodup_iff_getElem?_ne_getElem?.2 fun i j hij hj heq => ?_
    obtain ⟨x, hx⟩ : ∃ x, table.toList[j]? = some x := ⟨_, List.getElem?_eq_getElem hj⟩
    rw [hx] at heq
    rw [Array.getElem?_toList] at hx heq
    exact absurd (hd i j x heq hx) (Nat.ne_of_lt hij)
  rw [← Array.length_toList]
  refine length_le_ncard hnodup hS fun x hx => ?_
  obtain ⟨i, hi⟩ := Array.getElem?_of_mem (Array.mem_toList_iff.1 hx)
  exact h hi

/-- What is added takes room from what can be added. -/
theorem room_lt {α : Type} {S S' : Set α} {n : Nat} (hsub : S ⊆ S') {x : α} (hx : x ∈ S')
    (hnew : x ∉ S) (hfinite : S'.Finite) (hn : S'.ncard ≤ n) : n - S'.ncard < n - S.ncard := by
  have hlt := Set.ncard_lt_ncard ⟨hsub, fun hback => hnew (hback hx)⟩ hfinite
  omega

theorem ncard_lt (n : Nat) : {i | i < n}.ncard = n := by
  have heq : {i | i < n} = (Finset.range n : Set Nat) := by
    ext i
    simp
  rw [heq, Set.ncard_coe_finset, Finset.card_range]

/-- The sequences of at most `k` items, of which there are `n`. -/
def sequences (k n : Nat) : Set Context :=
  {ctx | ctx.length ≤ k ∧ ∀ i ∈ ctx, i < n}

theorem sequences_finite (k n : Nat) : (sequences k n).Finite := by
  refine ((List.finite_length_le (Fin n) k).image (List.map Fin.val)).subset ?_
  rintro ctx ⟨hlength, hitems⟩
  refine ⟨ctx.pmap Fin.mk hitems, by simpa using hlength, ?_⟩
  rw [List.map_pmap]
  simp

theorem sequences_mono {k n n' : Nat} (h : n ≤ n') : sequences k n ⊆ sequences k n' :=
  fun _ hctx => ⟨hctx.1, fun i hi => Nat.lt_of_lt_of_le (hctx.2 i hi) h⟩

/-- The objects of a graph. -/
def Pag.objects (g : Pag) : Finset NodeId :=
  (Finset.range g.nodes.size).filter fun n => g.isObject n = true

theorem Pag.mem_objects {g : Pag} {n : NodeId} : n ∈ g.objects ↔ g.isObject n = true := by
  unfold objects
  rw [Finset.mem_filter, Finset.mem_range, and_iff_right_iff_imp]
  intro h
  obtain ⟨x, hx, -⟩ := Pag.isObject_iff.1 h
  exact Pag.node?_lt hx

theorem Pag.Extends.card_objects_le {g g' : Pag} (h : g.Extends g') :
    g.objects.card ≤ g'.objects.card :=
  Finset.card_le_card fun _ hn => mem_objects.2 (h.isObject (mem_objects.1 hn))

namespace Builder

variable {p : Program} {g : CallGraph} {b : Builder}

/-! ## Methods and contexts -/

/-- There are no more methods than the program names. -/
theorem Confined.funcs_le (hb : b.Confined p g) :
    b.graph.nodes.size ≤ {m | p.NamesMethod g m}.ncard := by
  have hd : Distinct (b.graph.nodes.map fun x => x.method) := by
    intro i j m hi hj
    rw [Array.getElem?_map] at hi hj
    exact hb.graph.consistent.distinct hi hj
  rw [← Array.size_map (f := fun x : FuncNode => x.method)]
  refine hd.size_le_ncard (p.namesMethod_finite g) fun {f m} hf => ?_
  rw [Array.getElem?_map] at hf
  exact hb.graph.method hf

/-- The methods and calls that there are, of which items are made. -/
def plainItems (p : Program) (g : CallGraph) : Set ContextItem :=
  (fun x : Nat × Nat => .callSite x.1 x.2) ''
      ({id | g.HasId id} ×ˢ {f | f < {m | p.NamesMethod g m}.ncard}) ∪
    ContextItem.function '' {f | f < {m | p.NamesMethod g m}.ncard}

theorem plainItems_finite (p : Program) (g : CallGraph) : (plainItems p g).Finite :=
  ((g.hasId_finite.prod (Set.finite_lt_nat _)).image _).union ((Set.finite_lt_nat _).image _)

/-- An item is one of these, or an object. -/
theorem Confined.mem_plainItems (hb : b.Confined p g) {x : ContextItem} (hx : b.HasItem g x) :
    x ∈ plainItems p g ∨
      b.contexts.sensitivity = .object ∧ ∃ o ∈ b.pag.objects, x = .object o := by
  have hfunc : ∀ {f}, f < b.graph.nodes.size → f < {m | p.NamesMethod g m}.ncard :=
    fun hf => Nat.lt_of_lt_of_le hf hb.funcs_le
  cases x with
  | callSite site callee => exact Or.inl (Or.inl ⟨(site, callee), ⟨hx.2.1, hfunc hx.2.2⟩, rfl⟩)
  | object obj => exact Or.inr ⟨hx.1, obj, Pag.mem_objects.2 hx.2, rfl⟩
  | function func => exact Or.inl (Or.inr ⟨func, hfunc hx.2, rfl⟩)

theorem Confined.items_le (hb : b.Confined p g) :
    b.contexts.items.size ≤ (plainItems p g).ncard + b.pag.objects.card := by
  have hobjects : (ContextItem.object '' (b.pag.objects : Set NodeId)).Finite :=
    b.pag.objects.finite_toSet.image _
  refine (hb.contexts.items.size_le_ncard ((plainItems_finite p g).union hobjects) ?_).trans ?_
  · intro i x hi
    rcases hb.mem_plainItems (hb.contexts.item hi) with hx | ⟨-, o, ho, rfl⟩
    · exact Or.inl hx
    · exact Or.inr ⟨o, ho, rfl⟩
  · refine (Set.ncard_union_le _ _).trans (Nat.add_le_add_left ?_ _)
    exact (Set.ncard_image_le b.pag.objects.finite_toSet).trans_eq (Set.ncard_coe_finset _)

/-- If objects are no items, there are only the others. -/
theorem Confined.items_le_plain (hb : b.Confined p g) (hs : b.contexts.sensitivity ≠ .object) :
    b.contexts.items.size ≤ (plainItems p g).ncard := by
  refine hb.contexts.items.size_le_ncard (plainItems_finite p g) fun {i x} hi => ?_
  exact (hb.mem_plainItems (hb.contexts.item hi)).resolve_right fun h => hs h.1

theorem Confined.contexts_le (hb : b.Confined p g) {n : Nat} (hn : b.contexts.items.size ≤ n) :
    b.contexts.contexts.size ≤ (sequences b.contexts.k n).ncard :=
  hb.contexts.contexts.size_le_ncard (sequences_finite _ _) fun hctx =>
    sequences_mono hn (hb.contexts.context hctx)

/-! ## Nodes -/

/-- The contexts that there are, and that of element slots. -/
def places (b : Builder) : Set ContextId :=
  {cid | b.HasContext cid} ∪ {Context.container}

theorem places_subset (b : Builder) :
    b.places ⊆ {cid | cid < b.contexts.contexts.size} ∪ {Context.container} := by
  refine Set.union_subset_union_left _ fun cid hc => ?_
  obtain ⟨ctx, hctx⟩ := Option.isSome_iff_exists.1 hc
  exact (Array.getElem?_eq_some_iff.1 hctx).1

theorem places_finite (b : Builder) : b.places.Finite :=
  ((Set.finite_lt_nat _).union (Set.finite_singleton _)).subset b.places_subset

theorem ncard_places_le (b : Builder) : b.places.ncard ≤ b.contexts.contexts.size + 1 := by
  refine (Set.ncard_le_ncard b.places_subset
    ((Set.finite_lt_nat _).union (Set.finite_singleton _))).trans ?_
  refine (Set.ncard_union_le _ _).trans ?_
  rw [Set.ncard_singleton, ncard_lt]

/-- Nodes are told apart by context and entity. -/
theorem Confined.ncard_nodes_le (hb : b.Confined p g) {ns : Set NodeId} {entities : Set Entity}
    (hfinite : entities.Finite)
    (hns : ∀ n ∈ ns, ∃ x, b.pag.node? n = some x ∧ x.entity ∈ entities) :
    ns.ncard ≤ (b.contexts.contexts.size + 1) * entities.ncard := by
  let label : NodeId → Option (ContextId × Entity) := fun n =>
    (b.pag.node? n).map fun x => (x.cid, x.entity)
  have hlabels := b.places_finite.prod hfinite
  have hle := Set.ncard_le_ncard_of_injOn (s := ns)
    (t := some '' (b.places ×ˢ entities)) label ?_ ?_ (hlabels.image _)
  · refine hle.trans ?_
    rw [Set.ncard_image_of_injective _ (Option.some_injective _), Set.ncard_prod]
    exact Nat.mul_le_mul_right _ b.ncard_places_le
  · intro n hn
    obtain ⟨x, hx, he⟩ := hns n hn
    have hplace : x.cid ∈ b.places := (hb.node hx).context.imp_right And.left
    exact ⟨(x.cid, x.entity), ⟨hplace, he⟩, by simp [label, hx]⟩
  · intro n hn n' hn' heq
    obtain ⟨x, hx, -⟩ := hns n hn
    obtain ⟨x', hx', -⟩ := hns n' hn'
    simp only [label, hx, hx', Option.map_some, Option.some.injEq, Prod.mk.injEq] at heq
    exact hb.pag.unique hx hx' heq.1 heq.2

/-- A node that is no field stands for something that the program names, or for a function that
`bind` has made of an object. -/
theorem Confined.owners_le (hb : b.Confined p g) : {n | b.pag.IsOwner n}.ncard ≤
    (b.contexts.contexts.size + 1) *
      ({e | p.Names e}.ncard + p.stmts.size * b.pag.objects.card) := by
  have hstmts := (Set.finite_lt_nat p.stmts.size).prod b.pag.objects.finite_toSet
  have hbound := hstmts.image fun x => Entity.boundFunction x.1 x.2
  refine (hb.ncard_nodes_le (p.names_finite.union hbound) ?_).trans (Nat.mul_le_mul_left _ ?_)
  · rintro n ⟨x, hx, hplain⟩
    refine ⟨x, hx, ?_⟩
    have hentity := (hb.node hx).entity
    generalize x.entity = e at hplain hentity
    cases e with
    | objField obj key => cases hplain
    | boundFunction stmt target =>
      obtain ⟨⟨i, -, hi, -⟩, htarget⟩ := hentity
      exact Or.inr ⟨(stmt, target),
        ⟨Program.lt_of_invokeOf? hi, Pag.mem_objects.2 htarget⟩, rfl⟩
    | _ => exact Or.inl hentity
  · refine (Set.ncard_union_le _ _).trans (Nat.add_le_add_left ?_ _)
    refine (Set.ncard_image_le hstmts).trans ?_
    rw [Set.ncard_prod, Set.ncard_coe_finset, ncard_lt]

theorem owners_finite (b : Builder) : {n | b.pag.IsOwner n}.Finite := by
  refine (Set.finite_lt_nat b.pag.nodes.size).subset ?_
  rintro n ⟨x, hx, -⟩
  exact Pag.node?_lt hx

/-- A node is a field of one that is none, or it is none itself. -/
theorem Confined.nodes_le (hb : b.Confined p g) : b.pag.nodes.size ≤
    {n | b.pag.IsOwner n}.ncard + (b.contexts.contexts.size + 1) *
      ({n | b.pag.IsOwner n}.ncard * {key | p.HasKey key}.ncard) := by
  have hfields := b.owners_finite.prod p.hasKey_finite
  let fields : Set NodeId := {n | n < b.pag.nodes.size ∧ ¬b.pag.IsOwner n}
  have hle : fields.ncard ≤ (b.contexts.contexts.size + 1) *
      ((fun x : NodeId × FieldKey => Entity.objField x.1 x.2) ''
        ({n | b.pag.IsOwner n} ×ˢ {key | p.HasKey key})).ncard := by
    refine hb.ncard_nodes_le (hfields.image _) ?_
    rintro n ⟨hn, hfield⟩
    obtain ⟨x, hx⟩ := Pag.exists_node? hn
    refine ⟨x, hx, ?_⟩
    have hentity := (hb.node hx).entity
    have hno : x.entity.isObjField ≠ false := fun h => hfield ⟨x, hx, h⟩
    generalize x.entity = e at hno hentity
    cases e with
    | objField obj key => exact ⟨(obj, key), ⟨hentity.2, hentity.1⟩, rfl⟩
    | _ => exact absurd rfl hno
  have hall : {n | n < b.pag.nodes.size} ⊆ {n | b.pag.IsOwner n} ∪ fields := by
    intro n hn
    by_cases howner : b.pag.IsOwner n
    · exact Or.inl howner
    · exact Or.inr ⟨hn, howner⟩
  have hfinite : fields.Finite := (Set.finite_lt_nat b.pag.nodes.size).subset fun _ hn => hn.1
  have hsize := Set.ncard_le_ncard hall (b.owners_finite.union hfinite)
  rw [ncard_lt] at hsize
  refine (hsize.trans (Set.ncard_union_le _ _)).trans (Nat.add_le_add_left ?_ _)
  refine hle.trans (Nat.mul_le_mul_left _ ?_)
  exact (Set.ncard_image_le hfields).trans_eq Set.ncard_prod

/-! ## All of it -/

/-- The calls that wait, with the nodes they wait at. -/
def waiting (b : Builder) : Set (NodeId × SiteRef) :=
  {x | x.2 ∈ b.pag.sitesOf x.1}

/-- Nothing that the builder has is more than `n`. -/
structure Within (n : Nat) (b : Builder) : Prop where
  nodes : b.pag.nodes.size ≤ n
  contexts : b.contexts.contexts.size ≤ n
  edges : b.pag.edges.size ≤ n
  waiting : b.waiting.ncard ≤ n
  built : {x | x ∈ b.built}.ncard ≤ n

theorem lt_of_mem_sitesOf {g : Pag} {n : NodeId} {site : SiteRef} (h : site ∈ g.sitesOf n) :
    n < g.nodes.size := by
  by_contra hn
  have hnone : g.node? n = none := Array.getElem?_eq_none (Nat.le_of_not_lt hn)
  simp [Pag.sitesOf, hnone] at h

theorem Confined.waiting_subset (hb : b.Confined p g) {n : Nat} (hn : b.pag.nodes.size ≤ n) :
    b.waiting ⊆ {m | m < n} ×ˢ {site | p.HasSite site} :=
  fun _ hx => ⟨Nat.lt_of_lt_of_le (lt_of_mem_sitesOf hx) hn, hb.pag.site hx⟩

theorem Confined.waiting_finite (hb : b.Confined p g) : b.waiting.Finite :=
  ((Set.finite_lt_nat _).prod p.hasSite_finite).subset (hb.waiting_subset (Nat.le_refl _))

theorem Confined.edges_le (hb : b.Confined p g) {n : Nat} (hn : b.pag.nodes.size ≤ n) :
    b.pag.edges.size ≤ {e : FlowEdge | e.src < n ∧ e.dst < n}.ncard := by
  rw [← Array.length_toList]
  refine length_le_ncard hb.pag.once ?_ fun e he => ?_
  · have hkinds :
        ({.address, .copy, .load, .write, .this, .interprocedural} : Set EdgeKind).Finite :=
      Set.toFinite _
    refine ((hkinds.prod ((Set.finite_lt_nat n).prod (Set.finite_lt_nat n))).image
      fun x => FlowEdge.mk x.1 x.2.1 x.2.2).subset ?_
    rintro ⟨kind, src, dst⟩ ⟨hs, hd⟩
    exact ⟨(kind, src, dst), ⟨by cases kind <;> simp, hs, hd⟩, rfl⟩
  · obtain ⟨hs, hd⟩ := hb.pag.edge (Array.mem_toList_iff.1 he)
    exact ⟨Nat.lt_of_lt_of_le hs hn, Nat.lt_of_lt_of_le hd hn⟩

theorem Confined.built_le (hb : b.Confined p g) : {x | x ∈ b.built}.ncard ≤
    (b.contexts.contexts.size + 1) * {m | p.NamesMethod g m}.ncard := by
  have hfinite := b.places_finite.prod (Set.finite_lt_nat {m | p.NamesMethod g m}.ncard)
  refine (Set.ncard_le_ncard ?_ hfinite).trans ?_
  · rintro ⟨cid, f⟩ hx
    have htarget := hb.built hx
    exact ⟨Or.inl htarget.1, Nat.lt_of_lt_of_le htarget.2 hb.funcs_le⟩
  · rw [Set.ncard_prod, ncard_lt]
    exact Nat.mul_le_mul_right _ b.ncard_places_le

/-- The number of objects bounds everything. -/
theorem Confined.within (p : Program) (g : CallGraph) (k objects : Nat) :
    ∃ n, ∀ b : Builder, b.Confined p g → b.contexts.k = k → b.pag.objects.card ≤ objects →
      b.Within n := by
  let contexts := (sequences k ((plainItems p g).ncard + objects)).ncard
  let owners := (contexts + 1) * ({e | p.Names e}.ncard + p.stmts.size * objects)
  let nodes := owners + (contexts + 1) * (owners * {key | p.HasKey key}.ncard)
  let edges := {e : FlowEdge | e.src < nodes ∧ e.dst < nodes}.ncard
  let waiting := nodes * {site | p.HasSite site}.ncard
  let built := (contexts + 1) * {m | p.NamesMethod g m}.ncard
  refine ⟨nodes + contexts + edges + waiting + built, fun b hb hk hobjects => ?_⟩
  have hcontexts : b.contexts.contexts.size ≤ contexts := by
    have hle := hb.contexts_le (hb.items_le.trans (Nat.add_le_add_left hobjects _))
    rw [hk] at hle
    exact hle
  have howners : {n | b.pag.IsOwner n}.ncard ≤ owners := by
    refine hb.owners_le.trans (Nat.mul_le_mul (Nat.succ_le_succ hcontexts) ?_)
    exact Nat.add_le_add_left (Nat.mul_le_mul_left _ hobjects) _
  have hnodes : b.pag.nodes.size ≤ nodes := by
    refine hb.nodes_le.trans (Nat.add_le_add howners ?_)
    exact Nat.mul_le_mul (Nat.succ_le_succ hcontexts) (Nat.mul_le_mul_right _ howners)
  have hedges : b.pag.edges.size ≤ edges := hb.edges_le hnodes
  have hwaiting : b.waiting.ncard ≤ waiting := by
    refine (Set.ncard_le_ncard (hb.waiting_subset hnodes)
      ((Set.finite_lt_nat _).prod p.hasSite_finite)).trans ?_
    rw [Set.ncard_prod, ncard_lt]
  have hbuilt : {x | x ∈ b.built}.ncard ≤ built :=
    hb.built_le.trans (Nat.mul_le_mul_right _ (Nat.succ_le_succ hcontexts))
  exact ⟨by omega, by omega, by omega, by omega, by omega⟩

/-- There are more objects than that. -/
def Exceeds (objects : Nat) (b : Builder) : Prop :=
  objects < b.pag.objects.card

instance (objects : Nat) : Lasts (KeepsConfined p g) (Exceeds objects) where
  lasts h hout := Nat.lt_of_lt_of_le hout h.expands.pag.card_objects_le

/-- If no result of `bind` is assigned, and contexts are not made of objects, then an object is told
apart by what the program names and by contexts that do not depend on objects. -/
theorem Confined.card_objects_le (p : Program) (g : CallGraph) (k : Nat) (sensitivity : Sensitivity)
    (hbind : ∀ stmt, ¬p.BindsAt stmt) (hk : sensitivity = .object → k = 0) :
    ∃ objects, ∀ b : Builder, b.Confined p g → b.contexts.k = k →
      b.contexts.sensitivity = sensitivity → b.pag.objects.card ≤ objects := by
  let contexts := (sequences k (plainItems p g).ncard).ncard
  refine ⟨(contexts + 1) * {e | p.Names e}.ncard, fun b hb hbk hs => ?_⟩
  have hcontexts : b.contexts.contexts.size ≤ contexts := by
    by_cases hobject : sensitivity = .object
    · -- All contexts are empty.
      have hzero : k = 0 := hk hobject
      have hsame : sequences k b.contexts.items.size = sequences k (plainItems p g).ncard := by
        subst hzero
        ext ctx
        simp +contextual [sequences]
      have hle := hb.contexts_le (Nat.le_refl b.contexts.items.size)
      rw [hbk, hsame] at hle
      exact hle
    · have hle := hb.contexts_le (hb.items_le_plain (hs ▸ hobject))
      rw [hbk] at hle
      exact hle
  rw [← Set.ncard_coe_finset]
  refine (hb.ncard_nodes_le p.names_finite fun n hn => ?_).trans
    (Nat.mul_le_mul_right _ (Nat.succ_le_succ hcontexts))
  obtain ⟨x, hx, hplain⟩ := hb.isOwner_of_isObject (Pag.mem_objects.1 hn)
  refine ⟨x, hx, ?_⟩
  have hentity := (hb.node hx).entity
  generalize x.entity = e at hplain hentity
  cases e with
  | objField obj key => cases hplain
  | boundFunction stmt target => exact absurd hentity.1 (hbind stmt)
  | _ => exact hentity

end Builder

end PointsTo
