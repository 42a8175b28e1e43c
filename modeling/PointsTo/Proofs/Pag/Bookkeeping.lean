import Mathlib.Data.Finset.Prod
import PointsTo.Proofs.Occurrences
import PointsTo.Proofs.Pag.Growth

/-!
# What is kept about a graph

A graph is made by four operations: nodes, edges, waiting calls and accesses are asked for, in any
order and as often as one likes. What can be read off it afterwards is exact (`Booked`): nodes are
found by context and entity, the edges at a node are those of the graph, counts count them, and the
references to a field are the nodes that were made as such.

The views of a graph are read off its nodes and edges. They could as well be kept in tables of their
own, an index, lists at every node and counters, which each operation brings up to date (`Tables`).
This comes to the same: the tables agree with the views after every operation, whether it is the
first of its kind, one more like it, or one that fails (`describes_applyAll`).
-/

namespace PointsTo.Pag

/-- One operation on a graph. -/
inductive Op where
  | node (cid : ContextId) (e : Entity) (kind : NodeKind)
  | edge (kind : EdgeKind) (src dst : NodeId)
  | site (n : NodeId) (site : SiteRef)
  | baseRef (base ref : ValueId)

/-- The graph after an operation. -/
def apply (g : Pag) : Op → Pag
  | .node cid e kind => (g.addNode cid e kind).2
  | .edge kind src dst => (g.addEdge kind src dst).2
  | .site n site => (g.addSite n site).2
  | .baseRef base ref => g.addBaseRef base ref

/-- The graph after a sequence of operations. -/
def applyAll (g : Pag) (ops : List Op) : Pag :=
  ops.foldl apply g

@[simp] theorem applyAll_nil (g : Pag) : g.applyAll [] = g :=
  rfl

theorem applyAll_append (g : Pag) (ops more : List Op) :
    g.applyAll (ops ++ more) = (g.applyAll ops).applyAll more :=
  List.foldl_append

@[simp] theorem applyAll_concat (g : Pag) (ops : List Op) (op : Op) :
    g.applyAll (ops ++ [op]) = (g.applyAll ops).apply op :=
  g.applyAll_append ops [op]

variable {g : Pag}

theorem apply_extends (g : Pag) (op : Op) : g.Extends (g.apply op) := by
  cases op with
  | node cid e kind => exact g.addNode_extends cid e kind
  | edge kind src dst => exact g.addEdge_extends kind src dst
  | site n site => exact g.addSite_extends n site
  | baseRef base ref => exact g.addBaseRef_extends base ref

theorem applyAll_extends (g : Pag) (ops : List Op) : g.Extends (g.applyAll ops) := by
  induction ops generalizing g with
  | nil => exact .rfl
  | cons op ops ih => exact (g.apply_extends op).trans (ih (g.apply op))

/-! ## Nothing twice -/

/-- Every entity has one node in a context, every edge is there once and between nodes, no call
waits twice at a node, and no access is recorded twice. -/
structure Simple (g : Pag) : Prop where
  unique : g.Unique
  edges : g.edges.toList.Nodup
  ends : ∀ e ∈ g.edges, e.src < g.nodes.size ∧ e.dst < g.nodes.size
  sites : ∀ n, (g.sitesOf n).Nodup
  baseRefs : g.baseRefs.Nodup

theorem simple_new (backing : Backing) : Simple { backing } where
  unique n n' x x' hx := by simp [node?] at hx
  edges := .nil
  ends e he := by simp at he
  sites n := by simp [sitesOf, node?]
  baseRefs := .nil

namespace Simple

theorem addNode (h : g.Simple) (cid : ContextId) (e : Entity) (kind : NodeKind) :
    (g.addNode cid e kind).2.Simple where
  unique := h.unique.addNode cid e kind
  edges := by
    rw [edges_addNode]
    exact h.edges
  ends x hx := by
    rw [edges_addNode] at hx
    have hgrow := g.addNode_extends cid e kind
    exact ⟨hgrow.lt (h.ends x hx).1, hgrow.lt (h.ends x hx).2⟩
  sites n := by
    unfold Pag.addNode
    split
    · exact h.sites n
    · unfold sitesOf node?
      rw [Array.getElem?_push]
      split
      · exact .nil
      · exact h.sites n
  baseRefs := by
    rw [baseRefs_addNode]
    exact h.baseRefs

theorem addEdge (h : g.Simple) (kind : EdgeKind) (src dst : NodeId) :
    (g.addEdge kind src dst).2.Simple where
  unique := h.unique.of_extends (g.addEdge_extends kind src dst) (by simp)
  edges := nodup_edges_addEdge h.edges
  ends := ends_addEdge h.ends
  sites n := by
    unfold sitesOf
    rw [node?_addEdge]
    exact h.sites n
  baseRefs := by
    rw [baseRefs_addEdge]
    exact h.baseRefs

theorem addSite (h : g.Simple) (n : NodeId) (site : SiteRef) : (g.addSite n site).2.Simple := by
  refine ⟨h.unique.of_extends (g.addSite_extends n site) (by simp), ?_, fun e he => ?_, fun m => ?_,
    ?_⟩
  · rw [edges_addSite]
    exact h.edges
  · rw [edges_addSite] at he
    rw [size_addSite]
    exact h.ends e he
  · unfold Pag.addSite
    split
    · rename_i hc
      have hm := h.sites m
      unfold sitesOf at hm ⊢
      rw [node?_modify]
      by_cases hnm : n = m
      · subst hnm
        obtain ⟨node, hnode⟩ : ∃ node, g.node? n = some node :=
          exists_node? (by simp only [Bool.and_eq_true, decide_eq_true_eq] at hc; exact hc.1)
        have hno : site ∉ node.sites := by
          simpa [sitesOf, hnode, node?_lt hnode] using hc
        rw [hnode, Option.map_some, Option.getD_some] at hm
        rw [if_pos rfl, hnode]
        have hmore := hm.concat hno
        rwa [List.concat_eq_append] at hmore
      · rw [if_neg hnm]
        exact hm
    · exact h.sites m
  · rw [baseRefs_addSite]
    exact h.baseRefs

theorem addBaseRef (h : g.Simple) (base ref : ValueId) : (g.addBaseRef base ref).Simple := by
  have hn := g.nodes_addBaseRef base ref
  have he := g.edges_addBaseRef base ref
  refine ⟨h.unique.of_extends (g.addBaseRef_extends base ref) (by rw [hn]), ?_, ?_, fun n => ?_, ?_⟩
  · rw [he]
    exact h.edges
  · rw [he, hn]
    exact h.ends
  · unfold sitesOf
    rw [node?_congr hn]
    exact h.sites n
  · unfold Pag.addBaseRef
    split
    · exact h.baseRefs
    · rename_i hc
      exact List.concat_eq_append ▸ h.baseRefs.concat (by simpa using hc)

theorem apply (h : g.Simple) (op : Op) : (g.apply op).Simple := by
  cases op with
  | node cid e kind => exact h.addNode cid e kind
  | edge kind src dst => exact h.addEdge kind src dst
  | site n site => exact h.addSite n site
  | baseRef base ref => exact h.addBaseRef base ref

theorem applyAll (h : g.Simple) (ops : List Op) : (g.applyAll ops).Simple := by
  induction ops generalizing g with
  | nil => exact h
  | cons op ops ih => exact ih (h.apply op)

/-! ### What is read off -/

theorem find?_iff (h : g.Simple) {cid : ContextId} {e : Entity} {n : NodeId} :
    g.find? cid e = some n ↔ ∃ x, g.node? n = some x ∧ x.cid = cid ∧ x.entity = e := by
  rw [find?_eq_some_iff]
  refine ⟨And.left, fun ⟨x, hx, hcid, he⟩ => ⟨⟨x, hx, hcid, he⟩, fun m hm y hy hboth => ?_⟩⟩
  have hsame := h.unique hy hx (hboth.1.trans hcid.symm) (hboth.2.trans he.symm)
  exact Nat.ne_of_lt hm hsame

/-- Among edges of one kind with one end in common, the other end tells which one it is. -/
theorem nodup_map (h : g.Simple) {α : Type} (p : FlowEdge → Bool) (f : FlowEdge → α)
    (hf : ∀ e e', p e = true → p e' = true → f e = f e' → e = e') :
    ((g.edges.toList.filter p).map f).Nodup := by
  refine List.Nodup.map_on (fun e he e' he' => ?_) (h.edges.filter p)
  exact hf e e' (List.mem_filter.1 he).2 (List.mem_filter.1 he').2

theorem nodup_outEdges (h : g.Simple) (kind : EdgeKind) (src : NodeId) :
    (g.outEdges kind src).Nodup := by
  refine h.nodup_map _ _ fun ⟨k, s, d⟩ ⟨k', s', d'⟩ he he' heq => ?_
  simp only [Bool.and_eq_true, beq_iff_eq] at he he' heq
  rw [he.1, he.2, he'.1, he'.2, heq]

theorem nodup_inEdges (h : g.Simple) (kind : EdgeKind) (dst : NodeId) :
    (g.inEdges kind dst).Nodup := by
  refine h.nodup_map _ _ fun ⟨k, s, d⟩ ⟨k', s', d'⟩ he he' heq => ?_
  simp only [Bool.and_eq_true, beq_iff_eq] at he he' heq
  rw [he.1, he.2, he'.1, he'.2, heq]

end Simple

/-- The pairs of nodes that an edge of some kind joins. -/
def joined (g : Pag) (kind : EdgeKind) : Finset (NodeId × NodeId) :=
  (Finset.range g.nodes.size ×ˢ Finset.range g.nodes.size).filter fun x =>
    g.hasEdge kind x.1 x.2 = true

theorem Simple.edgeCount_eq (h : g.Simple) (kind : EdgeKind) :
    g.edgeCount kind = (g.joined kind).card := by
  have hnodup := h.nodup_map (fun e => e.kind == kind) (fun e => (e.src, e.dst))
    fun ⟨k, s, d⟩ ⟨k', s', d'⟩ he he' heq => by
      simp only [beq_iff_eq] at he he'
      cases heq
      rw [he, he']
  have hjoined : g.joined kind =
      ((g.edges.toList.filter fun e => e.kind == kind).map fun e => (e.src, e.dst)).toFinset := by
    ext ⟨s, d⟩
    simp only [joined, Finset.mem_filter, Finset.mem_product, Finset.mem_range, hasEdge_iff,
      List.mem_toFinset, List.mem_map, List.mem_filter, Array.mem_toList_iff, beq_iff_eq]
    constructor
    · rintro ⟨-, he⟩
      exact ⟨_, ⟨he, rfl⟩, rfl⟩
    · rintro ⟨⟨k, s', d'⟩, ⟨he, rfl⟩, heq⟩
      cases heq
      exact ⟨h.ends _ he, he⟩
  rw [hjoined, List.toFinset_card_of_nodup hnodup, List.length_map, ← List.countP_eq_length_filter,
    edgeCount, Array.countP_toList]

/-- Every edge is of one of the six kinds. -/
theorem sum_edgeCount (g : Pag) :
    g.edgeCount .address + g.edgeCount .copy + g.edgeCount .load + g.edgeCount .write +
      g.edgeCount .this + g.edgeCount .interprocedural = g.edges.size := by
  simp only [edgeCount, ← Array.countP_toList, ← Array.length_toList]
  induction g.edges.toList with
  | nil => rfl
  | cons e es ih =>
    simp only [List.countP_cons, List.length_cons]
    cases e.kind <;> simp <;> omega

/-! ## Where things come from -/

/-- The node at a position is one of that context, entity and kind. -/
def NodeAt (g : Pag) (n : NodeId) (cid : ContextId) (e : Entity) (kind : NodeKind) : Prop :=
  ∃ x, g.node? n = some x ∧ x.cid = cid ∧ x.entity = e ∧ x.kind = kind

section Origins

variable {n : NodeId} {cid : ContextId} {e : Entity} {kind : NodeKind}

theorem Extends.nodeAt {g' : Pag} (h : g.Extends g') (hn : g.NodeAt n cid e kind) :
    g'.NodeAt n cid e kind := by
  obtain ⟨x, hx, hcid, he, hkind⟩ := hn
  obtain ⟨y, hy, hgrow⟩ := h.node hx
  exact ⟨y, hy, hgrow.cid.trans hcid, hgrow.entity.trans he, hgrow.kind.trans hkind⟩

theorem exists_nodeAt : (∃ cid e kind, g.NodeAt n cid e kind) ↔ n < g.nodes.size := by
  constructor
  · rintro ⟨cid, e, kind, x, hx, -⟩
    exact node?_lt hx
  · intro hn
    obtain ⟨x, hx⟩ := exists_node? hn
    exact ⟨_, _, _, x, hx, rfl, rfl, rfl⟩

/-- An operation makes a node if the node is asked for and not there. The node gets the next
position. -/
theorem nodeAt_apply (g : Pag) (op : Op) : (g.apply op).NodeAt n cid e kind ↔
    g.NodeAt n cid e kind ∨
      op = .node cid e kind ∧ g.find? cid e = none ∧ n = g.nodes.size := by
  have hext := g.apply_extends op
  constructor
  · rintro ⟨x, hx, rfl, rfl, rfl⟩
    have old (hlt : n < g.nodes.size) : g.NodeAt n x.cid x.entity x.kind := by
      obtain ⟨y, hy, hgrow⟩ := hext.back hlt hx
      exact ⟨y, hy, hgrow.cid.symm, hgrow.entity.symm, hgrow.kind.symm⟩
    have hlt := node?_lt hx
    cases op with
    | node c v k =>
      cases hfind : g.find? c v with
      | some m =>
        rw [apply, addNode, hfind] at hlt
        exact Or.inl (old hlt)
      | none =>
        rcases node?_addNode hx with hx | ⟨hn, rfl⟩
        · exact Or.inl (old (node?_lt hx))
        · exact Or.inr ⟨rfl, hfind, hn⟩
    | edge k src dst =>
      rw [apply, nodes_addEdge] at hlt
      exact Or.inl (old hlt)
    | site m site =>
      rw [apply, size_addSite] at hlt
      exact Or.inl (old hlt)
    | baseRef base ref =>
      rw [apply, nodes_addBaseRef] at hlt
      exact Or.inl (old hlt)
  · rintro (h | ⟨rfl, hfind, rfl⟩)
    · exact hext.nodeAt h
    · refine ⟨{ cid, entity := e, kind, pts := .empty g.backing }, ?_, rfl, rfl, rfl⟩
      rw [apply, addNode, hfind]
      simp [node?]

theorem hasEdge_apply {k : EdgeKind} {src dst : NodeId} (g : Pag) (op : Op) :
    (g.apply op).hasEdge k src dst = true ↔
      g.hasEdge k src dst = true ∨
        op = .edge k src dst ∧ src < g.nodes.size ∧ dst < g.nodes.size := by
  simp only [hasEdge_iff]
  constructor
  · intro h
    cases op with
    | node c v k => exact Or.inl (by rwa [apply, edges_addNode] at h)
    | edge k s d =>
      rcases mem_edges_addEdge h with h | ⟨-, heq, hs, hd⟩
      · exact Or.inl h
      · cases heq
        exact Or.inr ⟨rfl, hs, hd⟩
    | site m site => exact Or.inl (by rwa [apply, edges_addSite] at h)
    | baseRef base ref => exact Or.inl (by rwa [apply, edges_addBaseRef] at h)
  · rintro (h | ⟨rfl, hs, hd⟩)
    · exact (g.apply_extends op).edge h
    · exact mem_edges_of_addEdge hs hd

theorem mem_sitesOf_apply {site : SiteRef} (g : Pag) (op : Op) :
    site ∈ (g.apply op).sitesOf n ↔
      site ∈ g.sitesOf n ∨ op = .site n site ∧ n < g.nodes.size := by
  constructor
  · intro h
    cases op with
    | node c v k => exact Or.inl (mem_sitesOf_addNode.1 h)
    | edge k s d =>
      unfold apply sitesOf at h
      rw [node?_addEdge] at h
      exact Or.inl h
    | site m other =>
      rcases mem_sitesOf_addSite h with h | ⟨hnew, rfl, rfl⟩
      · exact Or.inl h
      · refine Or.inr ⟨rfl, ?_⟩
        have hlt := mem_sitesOf.1 h
        obtain ⟨x, hx, -⟩ := hlt
        exact size_addSite g n site ▸ node?_lt hx
    | baseRef base ref =>
      unfold apply sitesOf at h
      rw [node?_congr (g.nodes_addBaseRef base ref)] at h
      exact Or.inl h
  · rintro (h | ⟨rfl, hn⟩)
    · exact (g.apply_extends op).site h
    · exact mem_sitesOf_of_addSite g n site hn

theorem mem_baseRefsOf_apply {base ref : ValueId} (g : Pag) (op : Op) :
    ref ∈ (g.apply op).baseRefsOf base ↔
      ref ∈ g.baseRefsOf base ∨ op = .baseRef base ref := by
  have hmem : ∀ g : Pag, ref ∈ g.baseRefsOf base ↔ (base, ref) ∈ g.baseRefs := by
    simp [baseRefsOf]
  rw [hmem, hmem]
  cases op with
  | node c v k => simp [apply]
  | edge k s d => simp [apply]
  | site m other => simp [apply]
  | baseRef b r =>
    rw [apply, addBaseRef]
    split
    · rename_i hc
      simp only [List.contains_eq_mem, decide_eq_true_eq] at hc
      refine ⟨Or.inl, ?_⟩
      rintro (h | h)
      · exact h
      · cases h
        exact hc
    · simp [eq_comm]

end Origins

/-! ## Views and what is added -/

theorem pairwise_nodesWhere (g : Pag) (p : NodeId → Node → Bool) :
    (g.nodesWhere p).Pairwise (· < ·) :=
  List.pairwise_lt_range.filter _

theorem nodesWhere_congr {g' : Pag} {p : NodeId → Node → Bool}
    (hsize : g'.nodes.size = g.nodes.size)
    (h : ∀ n, (g'.node? n).any (p n) = (g.node? n).any (p n)) :
    g'.nodesWhere p = g.nodesWhere p := by
  unfold nodesWhere
  rw [hsize]
  exact List.filter_congr fun n _ => h n

/-- A new node comes last. -/
theorem nodesWhere_push (g : Pag) (p : NodeId → Node → Bool) (x : Node) :
    ({ g with nodes := g.nodes.push x } : Pag).nodesWhere p =
      g.nodesWhere p ++ if p g.nodes.size x then [g.nodes.size] else [] := by
  have hold : ∀ n ∈ List.range g.nodes.size,
      (({ g with nodes := g.nodes.push x } : Pag).node? n).any (p n) = (g.node? n).any (p n) := by
    intro n hn
    unfold node?
    rw [Array.getElem?_push, if_neg (Nat.ne_of_lt (List.mem_range.1 hn))]
  unfold nodesWhere
  rw [Array.size_push, List.range_succ, List.filter_append, List.filter_congr hold]
  simp [node?, List.filter_cons]

/-! ## Tables -/

/-- Answers that are kept, instead of being read off nodes and edges. -/
structure Tables where
  size : Nat := 0
  index : ContextId → Entity → Option NodeId := fun _ _ => none
  nodesOf : ValueId → List NodeId := fun _ => []
  fieldOf : NodeId → FieldKey → Option NodeId := fun _ _ => none
  refsOf : NodeId → List NodeId := fun _ => []
  edges : Finset FlowEdge := ∅
  outEdges : EdgeKind → NodeId → List NodeId := fun _ _ => []
  inEdges : EdgeKind → NodeId → List NodeId := fun _ _ => []
  counts : EdgeKind → Nat := fun _ => 0

namespace Tables

/-- A new node is noted in the index, at its value, and as the field or the reference that it is at
its owner, if that is there. -/
def addNode (t : Tables) (cid : ContextId) (e : Entity) (kind : NodeKind) : Tables :=
  match t.index cid e with
  | some _ => t
  | none =>
    { t with
      size := t.size + 1
      index := fun c x => if c = cid ∧ x = e then some t.size else t.index c x
      nodesOf := fun v => if e = .value v then t.nodesOf v ++ [t.size] else t.nodesOf v
      fieldOf := fun obj key =>
        if obj < t.size ∧ e = .objField obj key then some t.size else t.fieldOf obj key
      refsOf := fun b =>
        if b < t.size ∧ e.isObjField = false ∧ kind.reference?.bind Prod.fst = some b then
          t.refsOf b ++ [t.size]
        else t.refsOf b }

/-- A new edge is noted at both ends and counted. -/
def addEdge (t : Tables) (kind : EdgeKind) (src dst : NodeId) : Tables :=
  if src < t.size ∧ dst < t.size ∧ ⟨kind, src, dst⟩ ∉ t.edges then
    { t with
      edges := insert ⟨kind, src, dst⟩ t.edges
      outEdges := fun k n => if k = kind ∧ n = src then t.outEdges k n ++ [dst] else t.outEdges k n
      inEdges := fun k n => if k = kind ∧ n = dst then t.inEdges k n ++ [src] else t.inEdges k n
      counts := Function.update t.counts kind (t.counts kind + 1) }
  else t

/-- The tables after an operation. Waiting calls, and accesses to fields of values, have one place
only. -/
def apply (t : Tables) : Op → Tables
  | .node cid e kind => t.addNode cid e kind
  | .edge kind src dst => t.addEdge kind src dst
  | .site .. | .baseRef .. => t

def applyAll (t : Tables) (ops : List Op) : Tables :=
  ops.foldl apply t

/-- The tables hold the views of the graph. -/
structure Describes (t : Tables) (g : Pag) : Prop where
  size : t.size = g.nodes.size
  index : ∀ cid e, t.index cid e = g.find? cid e
  nodesOf : ∀ v, t.nodesOf v = g.nodesOf v
  fieldOf : ∀ obj key, t.fieldOf obj key = g.fieldOf? obj key
  refsOf : ∀ b, t.refsOf b = g.refsOf b
  edges : ∀ e, e ∈ t.edges ↔ e ∈ g.edges
  outEdges : ∀ kind n, t.outEdges kind n = g.outEdges kind n
  inEdges : ∀ kind n, t.inEdges kind n = g.inEdges kind n
  counts : ∀ kind, t.counts kind = g.edgeCount kind

variable {t : Tables}

/-! ### The tables keep step -/

/-- Waiting calls, sets of objects and accesses make no difference to the tables. -/
theorem Describes.congr {g' : Pag} (h : t.Describes g) (hedges : g'.edges = g.edges)
    (hsize : g'.nodes.size = g.nodes.size) (hg : g.Extends g') : t.Describes g' := by
  have hnode : ∀ n (P : ContextId → Entity → NodeKind → Bool),
      (g'.node? n).any (fun x => P x.cid x.entity x.kind) =
        (g.node? n).any fun x => P x.cid x.entity x.kind := by
    intro n P
    cases hx : g'.node? n with
    | none =>
      have hnone : g.node? n = none := by
        rw [node?, Array.getElem?_eq_none_iff] at hx ⊢
        omega
      rw [hnone]
    | some x =>
      obtain ⟨y, hy, hgrow⟩ := hg.back (hsize ▸ node?_lt hx) hx
      rw [hy, Option.any_some, Option.any_some, hgrow.cid, hgrow.entity, hgrow.kind]
  have hwhere : ∀ P : NodeId → Entity → NodeKind → Bool,
      g'.nodesWhere (fun n x => P n x.entity x.kind) =
        g.nodesWhere fun n x => P n x.entity x.kind :=
    fun P => nodesWhere_congr hsize fun n => hnode n fun _ => P n
  have hfind : ∀ cid e, g'.find? cid e = g.find? cid e := by
    intro cid e
    cases hf : g.find? cid e with
    | some n => exact hg.find? hf
    | none =>
      refine find?_eq_none_iff.2 fun n x hx hboth => ?_
      obtain ⟨y, hy, hgrow⟩ := hg.back (hsize ▸ node?_lt hx) hx
      exact find?_eq_none_iff.1 hf n y hy ⟨hgrow.cid ▸ hboth.1, hgrow.entity ▸ hboth.2⟩
  refine ⟨h.size.trans hsize.symm, fun cid e => (h.index cid e).trans (hfind cid e).symm,
    fun v => ?_, fun obj key => ?_, fun b => ?_, fun e => hedges ▸ h.edges e, fun kind n => ?_,
    fun kind n => ?_, fun kind => ?_⟩
  · rw [h.nodesOf]
    exact (hwhere fun _ e _ => e == .value v).symm
  · rw [h.fieldOf]
    exact congrArg List.getLast? (hwhere fun i e _ => obj < i && e == .objField obj key).symm
  · rw [h.refsOf]
    exact (hwhere fun i e kind =>
      b < i && !e.isObjField && (kind.reference?.bind Prod.fst == some b)).symm
  · rw [h.outEdges, Pag.outEdges, Pag.outEdges, hedges]
  · rw [h.inEdges, Pag.inEdges, Pag.inEdges, hedges]
  · rw [h.counts, edgeCount, edgeCount, hedges]

theorem describes_addNode (h : t.Describes g) (cid : ContextId) (e : Entity) (kind : NodeKind) :
    (t.addNode cid e kind).Describes (g.addNode cid e kind).2 := by
  cases hf : g.find? cid e with
  | some n =>
    rw [addNode, h.index, Pag.addNode, hf]
    exact h
  | none =>
    rw [addNode, h.index, Pag.addNode, hf]
    refine ⟨?_, fun c x => ?_, fun v => ?_, fun obj key => ?_, fun b => ?_, h.edges, h.outEdges,
      h.inEdges, h.counts⟩
    · simp [h.size]
    · dsimp only
      rw [h.index, h.size]
      unfold find? at hf ⊢
      rw [Array.findIdx?_push]
      by_cases hcx : c = cid ∧ x = e
      · obtain ⟨rfl, rfl⟩ := hcx
        simp [hf]
      · have hne : (cid == c && e == x) = false := by
          rw [Bool.eq_false_iff, ne_eq, Bool.and_eq_true, beq_iff_eq, beq_iff_eq]
          exact fun heq => hcx ⟨heq.1.symm, heq.2.symm⟩
        rw [if_neg hcx]
        simp [hne]
    · dsimp only
      rw [h.nodesOf, h.size, Pag.nodesOf, Pag.nodesOf, nodesWhere_push]
      by_cases hv : e = .value v <;> simp [hv]
    · dsimp only
      rw [h.fieldOf, h.size, fieldOf?, fieldOf?, nodesWhere_push]
      by_cases hobj : obj < g.nodes.size ∧ e = .objField obj key
      · simp [hobj]
      · have hno : (decide (obj < g.nodes.size) && e == .objField obj key) = false := by
          simpa using hobj
        simp [hobj, hno]
    · dsimp only
      rw [h.refsOf, h.size, Pag.refsOf, Pag.refsOf, nodesWhere_push]
      by_cases hb : b < g.nodes.size ∧ e.isObjField = false ∧
          kind.reference?.bind Prod.fst = some b
      · simp [hb]
      · have hno : (decide (b < g.nodes.size) && !e.isObjField &&
            (kind.reference?.bind Prod.fst == some b)) = false := by
          simpa [and_assoc] using hb
        simp [hb, hno]

/-- An edge that is drawn is the last one at both of its ends, which may be the same node. -/
theorem describes_addEdge (h : t.Describes g) (kind : EdgeKind) (src dst : NodeId) :
    (t.addEdge kind src dst).Describes (g.addEdge kind src dst).2 := by
  have hcond : (src < t.size ∧ dst < t.size ∧ ⟨kind, src, dst⟩ ∉ t.edges) ↔
      (decide (src < g.nodes.size) && decide (dst < g.nodes.size) &&
        !g.hasEdge kind src dst) = true := by
    rw [h.size, h.edges, ← hasEdge_iff]
    simp [and_assoc]
  unfold addEdge Pag.addEdge
  by_cases hc : src < t.size ∧ dst < t.size ∧ ⟨kind, src, dst⟩ ∉ t.edges
  · rw [if_pos hc, if_pos (hcond.1 hc)]
    refine ⟨h.size, h.index, h.nodesOf, h.fieldOf, h.refsOf, fun e => ?_, fun k n => ?_,
      fun k n => ?_, fun k => ?_⟩
    · rw [Finset.mem_insert, h.edges, Array.mem_push, or_comm]
    · dsimp only
      rw [h.outEdges, Pag.outEdges, Pag.outEdges, Array.toList_push, List.filter_append,
        List.map_append]
      by_cases hk : k = kind ∧ n = src
      · simp [hk]
      · have hno : (kind == k && src == n) = false := by
          rw [Bool.eq_false_iff, ne_eq, Bool.and_eq_true, beq_iff_eq, beq_iff_eq]
          exact fun heq => hk ⟨heq.1.symm, heq.2.symm⟩
        simp [hk, hno]
    · dsimp only
      rw [h.inEdges, Pag.inEdges, Pag.inEdges, Array.toList_push, List.filter_append,
        List.map_append]
      by_cases hk : k = kind ∧ n = dst
      · simp [hk]
      · have hno : (kind == k && dst == n) = false := by
          rw [Bool.eq_false_iff, ne_eq, Bool.and_eq_true, beq_iff_eq, beq_iff_eq]
          exact fun heq => hk ⟨heq.1.symm, heq.2.symm⟩
        simp [hk, hno]
    · dsimp only
      rw [Pag.edgeCount, Array.countP_push]
      by_cases hk : k = kind
      · subst hk
        simp [h.counts, Pag.edgeCount]
      · have hno : (kind == k) = false := beq_eq_false_iff_ne.2 (Ne.symm hk)
        simp [hk, hno, h.counts, Pag.edgeCount]
  · rw [if_neg hc, if_neg fun hb => hc (hcond.2 hb)]
    exact h

theorem describes_apply (h : t.Describes g) (op : Op) : (t.apply op).Describes (g.apply op) := by
  cases op with
  | node cid e kind => exact describes_addNode h cid e kind
  | edge kind src dst => exact describes_addEdge h kind src dst
  | site n site =>
    exact h.congr (edges_addSite g n site) (size_addSite g n site) (g.addSite_extends n site)
  | baseRef base ref =>
    have hsize := congrArg Array.size (g.nodes_addBaseRef base ref)
    exact h.congr (edges_addBaseRef g base ref) hsize (g.addBaseRef_extends base ref)

theorem describes_new (backing : Backing) : Describes {} { backing } where
  size := rfl
  index _ _ := by simp [find?]
  nodesOf _ := rfl
  fieldOf _ _ := rfl
  refsOf _ := rfl
  edges e := by simp
  outEdges _ _ := rfl
  inEdges _ _ := rfl
  counts _ := rfl

theorem describes_applyAll (h : t.Describes g) (ops : List Op) :
    (t.applyAll ops).Describes (g.applyAll ops) := by
  induction ops generalizing t g with
  | nil => exact h
  | cons op ops ih => exact ih (describes_apply h op)

end Tables

/-! ## Every sequence of operations -/

theorem nodeAt_applyAll {backing : Backing} {ops : List Op} {n : NodeId} {cid : ContextId}
    {e : Entity} {kind : NodeKind} : (applyAll { backing } ops).NodeAt n cid e kind ↔
      ∃ before more, ops = before ++ .node cid e kind :: more ∧
        (applyAll { backing } before).find? cid e = none ∧
        n = (applyAll { backing } before).nodes.size := by
  refine (foldl_iff_occurs (P := (NodeAt · n cid e kind)) nodeAt_apply _ ops).trans
    (or_iff_right ?_)
  rintro ⟨x, hx, -⟩
  simp [node?] at hx

theorem hasEdge_applyAll {backing : Backing} {ops : List Op} {kind : EdgeKind}
    {src dst : NodeId} : (applyAll { backing } ops).hasEdge kind src dst = true ↔
      ∃ before more, ops = before ++ .edge kind src dst :: more ∧
        src < (applyAll { backing } before).nodes.size ∧
        dst < (applyAll { backing } before).nodes.size := by
  refine (foldl_iff_occurs (P := (hasEdge · kind src dst = true)) hasEdge_apply _ ops).trans
    (or_iff_right ?_)
  simp [hasEdge]

theorem mem_sitesOf_applyAll {backing : Backing} {ops : List Op} {n : NodeId} {site : SiteRef} :
    site ∈ (applyAll { backing } ops).sitesOf n ↔
      ∃ before more, ops = before ++ .site n site :: more ∧
        n < (applyAll { backing } before).nodes.size := by
  refine (foldl_iff_occurs (P := (site ∈ sitesOf · n)) mem_sitesOf_apply _ ops).trans
    (or_iff_right ?_)
  simp [sitesOf, node?]

theorem mem_baseRefsOf_applyAll {backing : Backing} {ops : List Op} {base ref : ValueId} :
    ref ∈ (applyAll { backing } ops).baseRefsOf base ↔ .baseRef base ref ∈ ops := by
  refine (foldl_iff_exists (P := (ref ∈ baseRefsOf · base)) mem_baseRefsOf_apply _ ops).trans ?_
  simp [baseRefsOf]

/-- The references to fields of a node are those that were made when it was there. -/
theorem mem_refsOf_applyAll {backing : Backing} {ops : List Op} {n b : NodeId} :
    n ∈ (applyAll { backing } ops).refsOf b ↔
      ∃ before cid e key cloneOf more,
        ops = before ++ .node cid e (.reference (some b) key cloneOf) :: more ∧
        (applyAll { backing } before).find? cid e = none ∧
        n = (applyAll { backing } before).nodes.size ∧
        e.isObjField = false ∧ b < (applyAll { backing } before).nodes.size := by
  rw [mem_refsOf]
  constructor
  · rintro ⟨hlt, key, x, hx, he, hkind⟩
    obtain ⟨cloneOf, hk⟩ : ∃ cloneOf, x.kind = .reference (some b) key cloneOf := by
      cases hx : x.kind <;> simp_all [NodeKind.reference?]
    obtain ⟨before, more, hops, hfind, rfl⟩ := nodeAt_applyAll.1 ⟨x, hx, rfl, rfl, hk⟩
    exact ⟨before, _, _, key, cloneOf, more, hops, hfind, rfl, he, hlt⟩
  · rintro ⟨before, cid, e, key, cloneOf, more, hops, hfind, hn, he, hlt⟩
    obtain ⟨x, hx, -, rfl, hk⟩ := nodeAt_applyAll.2 ⟨before, more, hops, hfind, hn⟩
    exact ⟨hn ▸ hlt, key, x, hx, he, by rw [hk]; rfl⟩

/-- What can be read off a graph made by these operations. -/
structure Booked (backing : Backing) (ops : List Op) (g : Pag) : Prop where
  /-- A node got the next position when it was asked for and not there. -/
  node : ∀ n cid e kind, g.NodeAt n cid e kind ↔
    ∃ before more, ops = before ++ .node cid e kind :: more ∧
      (applyAll { backing } before).find? cid e = none ∧
      n = (applyAll { backing } before).nodes.size
  dense : ∀ n, (∃ cid e kind, g.NodeAt n cid e kind) ↔ n < g.nodes.size
  /-- Whatever is done to the graph, a node remains what it is. -/
  kept : ∀ more n cid e kind, g.NodeAt n cid e kind → (g.applyAll more).NodeAt n cid e kind
  injective : ∀ n n' cid e kind kind',
    g.NodeAt n cid e kind → g.NodeAt n' cid e kind' → n = n'
  find : ∀ cid e n, g.find? cid e = some n ↔ ∃ kind, g.NodeAt n cid e kind
  nodesOf : ∀ v n, n ∈ g.nodesOf v ↔ ∃ cid kind, g.NodeAt n cid (.value v) kind
  nodesOf_sorted : ∀ v, (g.nodesOf v).Pairwise (· < ·)
  /-- An edge was asked for when both of its ends were there. -/
  edge : ∀ kind src dst, g.hasEdge kind src dst = true ↔
    ∃ before more, ops = before ++ .edge kind src dst :: more ∧
      src < (applyAll { backing } before).nodes.size ∧
      dst < (applyAll { backing } before).nodes.size
  outEdges : ∀ kind src dst, dst ∈ g.outEdges kind src ↔ g.hasEdge kind src dst = true
  inEdges : ∀ kind src dst, src ∈ g.inEdges kind dst ↔ g.hasEdge kind src dst = true
  outEdges_nodup : ∀ kind src, (g.outEdges kind src).Nodup
  inEdges_nodup : ∀ kind dst, (g.inEdges kind dst).Nodup
  joined : ∀ kind src dst, (src, dst) ∈ g.joined kind ↔ g.hasEdge kind src dst = true
  edgeCount : ∀ kind, g.edgeCount kind = (g.joined kind).card
  total : g.edgeCount .address + g.edgeCount .copy + g.edgeCount .load + g.edgeCount .write +
    g.edgeCount .this + g.edgeCount .interprocedural = g.edges.size
  /-- A reference to a field counts for its base if that was there when the reference was made. -/
  refsOf : ∀ n b, n ∈ g.refsOf b ↔
    ∃ before cid e key cloneOf more,
      ops = before ++ .node cid e (.reference (some b) key cloneOf) :: more ∧
      (applyAll { backing } before).find? cid e = none ∧
      n = (applyAll { backing } before).nodes.size ∧
      e.isObjField = false ∧ b < (applyAll { backing } before).nodes.size
  refsOf_sorted : ∀ b, (g.refsOf b).Pairwise (· < ·)
  sitesOf : ∀ n site, site ∈ g.sitesOf n ↔
    ∃ before more, ops = before ++ .site n site :: more ∧
      n < (applyAll { backing } before).nodes.size
  sitesOf_nodup : ∀ n, (g.sitesOf n).Nodup
  baseRefsOf : ∀ base ref, ref ∈ g.baseRefsOf base ↔ .baseRef base ref ∈ ops
  baseRefsOf_nodup : ∀ base, (g.baseRefsOf base).Nodup
  /-- A node that is there is not made again, whatever kind is asked for. -/
  known_node : ∀ n cid e kind, (∃ kind', g.NodeAt n cid e kind') →
    g.addNode cid e kind = ((n, false), g)
  /-- Edges are refused at unknown ends, and if they are there. -/
  addEdge_new : ∀ kind src dst, (g.addEdge kind src dst).1 = true ↔
    src < g.nodes.size ∧ dst < g.nodes.size ∧ g.hasEdge kind src dst = false
  addEdge_refused : ∀ kind src dst,
    (g.addEdge kind src dst).1 = false → (g.addEdge kind src dst).2 = g
  addSite_new : ∀ n site, (g.addSite n site).1 = true ↔ n < g.nodes.size ∧ site ∉ g.sitesOf n
  addSite_refused : ∀ n site, (g.addSite n site).1 = false → (g.addSite n site).2 = g
  tables : (({} : Tables).applyAll ops).Describes g

/-- The books of a graph are right after every sequence of operations, the repeated and the failing
ones included. -/
theorem applyAll_booked (backing : Backing) (ops : List Op) :
    Booked backing ops (applyAll { backing } ops) := by
  have h : (applyAll { backing } ops).Simple := (simple_new backing).applyAll ops
  have hfind : ∀ cid e n, (applyAll { backing } ops).find? cid e = some n ↔
      ∃ kind, (applyAll { backing } ops).NodeAt n cid e kind := by
    intro cid e n
    rw [h.find?_iff]
    exact ⟨fun ⟨x, hx, hcid, he⟩ => ⟨_, x, hx, hcid, he, rfl⟩,
      fun ⟨_, x, hx, hcid, he, _⟩ => ⟨x, hx, hcid, he⟩⟩
  refine {
    node := fun _ _ _ _ => nodeAt_applyAll
    dense := fun _ => exists_nodeAt
    kept := fun more _ _ _ _ hn => (applyAll_extends _ more).nodeAt hn
    injective := fun n n' cid e kind kind' ⟨x, hx, hcid, he, _⟩ ⟨x', hx', hcid', he', _⟩ =>
      h.unique hx hx' (hcid.trans hcid'.symm) (he.trans he'.symm)
    find := hfind
    nodesOf := fun v n => ?nodesOf
    nodesOf_sorted := fun v => pairwise_nodesWhere _ _
    edge := fun _ _ _ => hasEdge_applyAll
    outEdges := fun _ _ _ => mem_outEdges.trans hasEdge_iff.symm
    inEdges := fun _ _ _ => mem_inEdges.trans hasEdge_iff.symm
    outEdges_nodup := h.nodup_outEdges
    inEdges_nodup := h.nodup_inEdges
    joined := fun kind src dst => ?joined
    edgeCount := h.edgeCount_eq
    total := sum_edgeCount _
    refsOf := fun _ _ => mem_refsOf_applyAll
    refsOf_sorted := fun b => pairwise_nodesWhere _ _
    sitesOf := fun _ _ => mem_sitesOf_applyAll
    sitesOf_nodup := h.sites
    baseRefsOf := fun _ _ => mem_baseRefsOf_applyAll
    baseRefsOf_nodup := fun base => ?baseRefs
    known_node := fun n cid e kind hn => ?known
    addEdge_new := fun kind src dst => ?addEdge
    addEdge_refused := fun _ _ _ => addEdge_of_not_new
    addSite_new := fun n site => ?addSite
    addSite_refused := fun _ _ => addSite_of_not_new
    tables := Tables.describes_applyAll (Tables.describes_new backing) ops }
  case nodesOf =>
    rw [mem_nodesOf, entity?, Option.map_eq_some_iff]
    exact ⟨fun ⟨x, hx, he⟩ => ⟨_, _, x, hx, rfl, he, rfl⟩,
      fun ⟨_, _, x, hx, _, he, _⟩ => ⟨x, hx, he⟩⟩
  case joined =>
    simp only [Pag.joined, Finset.mem_filter, Finset.mem_product, Finset.mem_range,
      and_iff_right_iff_imp]
    exact fun he => h.ends _ (hasEdge_iff.1 he)
  case baseRefs =>
    refine List.Nodup.map_on (fun r hr r' hr' heq => ?_) (h.baseRefs.filter _)
    simp only [List.mem_filter, beq_iff_eq] at hr hr'
    exact Prod.ext (hr.2.trans hr'.2.symm) heq
  case known =>
    rw [addNode, (hfind cid e n).2 hn]
  case addEdge =>
    rw [addEdge]
    split <;> simp_all [and_assoc]
  case addSite =>
    rw [addSite]
    split <;> simp_all

/-- A node with an edge to itself is at both ends of that one edge. -/
example :
    let g := applyAll { backing := .hash }
      [.node 0 (.value 7) .localVar, .edge .copy 0 0, .edge .copy 0 0, .edge .copy 0 1]
    g.outEdges .copy 0 = [0] ∧ g.inEdges .copy 0 = [0] ∧ g.edgeCount .copy = 1 := by
  decide +kernel

end PointsTo.Pag
