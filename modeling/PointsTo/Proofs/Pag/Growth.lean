import Mathlib.Data.List.Nodup
import PointsTo.Pag.Basic
import PointsTo.Proofs.Sets.Membership

/-!
# How a graph grows

Nodes and edges are never taken back. A node keeps its context, entity and kind, and gets more
waiting calls and more objects (`Node.Grows`); a graph keeps its nodes and edges in this sense
(`Pag.Extends`). Whatever is read off the kind of a node, such as whether it is an object, which
field it accesses or whether an object fits as receiver, therefore holds from then on.

For each operation that changes a graph there are lemmas that say what it adds.
-/

namespace PointsTo

/-- The node later on. -/
structure Node.Grows (node node' : Node) : Prop where
  cid : node'.cid = node.cid
  entity : node'.entity = node.entity
  kind : node'.kind = node.kind
  sites : ∀ site ∈ node.sites, site ∈ node'.sites
  pts : ∀ o ∈ node.pts, o ∈ node'.pts

theorem Node.Grows.rfl {node : Node} : node.Grows node :=
  ⟨.refl _, .refl _, .refl _, fun _ h => h, fun _ h => h⟩

theorem Node.Grows.trans {n₁ n₂ n₃ : Node} (h : n₁.Grows n₂) (h' : n₂.Grows n₃) : n₁.Grows n₃ where
  cid := h'.cid.trans h.cid
  entity := h'.entity.trans h.entity
  kind := h'.kind.trans h.kind
  sites := fun s hs => h'.sites s (h.sites s hs)
  pts := fun o ho => h'.pts o (h.pts o ho)

namespace Pag

/-- The graph later on. -/
structure Extends (g g' : Pag) : Prop where
  node : ∀ {n node}, g.node? n = some node → ∃ node', g'.node? n = some node' ∧ node.Grows node'
  edge : ∀ {e}, e ∈ g.edges → e ∈ g'.edges

/-! ## Views as membership -/

theorem node?_lt {g : Pag} {n : NodeId} {node : Node} (h : g.node? n = some node) :
    n < g.nodes.size :=
  (Array.getElem?_eq_some_iff.1 h).1

theorem exists_node? {g : Pag} {n : NodeId} (h : n < g.nodes.size) :
    ∃ node, g.node? n = some node :=
  ⟨g.nodes[n], Array.getElem?_eq_getElem h⟩

theorem node?_congr {g g' : Pag} (h : g'.nodes = g.nodes) (n : NodeId) :
    g'.node? n = g.node? n := by
  unfold node?
  rw [h]

theorem ptsOf_congr {g g' : Pag} (h : g'.nodes = g.nodes) : g'.ptsOf = g.ptsOf := by
  funext n
  unfold ptsOf
  rw [node?_congr h]

theorem hasEdge_iff {g : Pag} {kind : EdgeKind} {src dst : NodeId} :
    g.hasEdge kind src dst = true ↔ ⟨kind, src, dst⟩ ∈ g.edges := by
  simp [hasEdge]

theorem mem_outEdges {g : Pag} {kind : EdgeKind} {src dst : NodeId} :
    dst ∈ g.outEdges kind src ↔ ⟨kind, src, dst⟩ ∈ g.edges := by
  simp only [outEdges, List.mem_map, List.mem_filter, Array.mem_toList_iff, Bool.and_eq_true,
    beq_iff_eq]
  constructor
  · rintro ⟨⟨k, s, d⟩, ⟨he, rfl, rfl⟩, rfl⟩
    exact he
  · intro h
    exact ⟨_, ⟨h, rfl, rfl⟩, rfl⟩

theorem mem_inEdges {g : Pag} {kind : EdgeKind} {src dst : NodeId} :
    src ∈ g.inEdges kind dst ↔ ⟨kind, src, dst⟩ ∈ g.edges := by
  simp only [inEdges, List.mem_map, List.mem_filter, Array.mem_toList_iff, Bool.and_eq_true,
    beq_iff_eq]
  constructor
  · rintro ⟨⟨k, s, d⟩, ⟨he, rfl, rfl⟩, rfl⟩
    exact he
  · intro h
    exact ⟨_, ⟨h, rfl, rfl⟩, rfl⟩

theorem mem_ptsOf {g : Pag} {n o : NodeId} :
    o ∈ g.ptsOf n ↔ ∃ node, g.node? n = some node ∧ o ∈ node.pts := by
  cases h : g.node? n with
  | none => simp [ptsOf, h]
  | some node => simp [ptsOf, h, ObjSet.mem_def]

theorem mem_sitesOf {g : Pag} {n : NodeId} {site : SiteRef} :
    site ∈ g.sitesOf n ↔ ∃ node, g.node? n = some node ∧ site ∈ node.sites := by
  cases h : g.node? n with
  | none => simp [sitesOf, h]
  | some node => simp [sitesOf, h]

theorem isObject_iff {g : Pag} {n : NodeId} :
    g.isObject n = true ↔ ∃ node, g.node? n = some node ∧ node.kind.isObject = true := by
  cases h : g.node? n with
  | none => simp [isObject, h]
  | some node => simp [isObject, h]

/-- The node `r` is an access to the field `key` of what the node `b` points to. -/
def Accesses (g : Pag) (r b : NodeId) (key : FieldKey) : Prop :=
  ∃ node, g.node? r = some node ∧ node.entity.isObjField = false ∧
    node.kind.reference? = some (some b, key)

instance (g : Pag) (r b : NodeId) (key : FieldKey) : Decidable (g.Accesses r b key) :=
  match h : g.node? r with
  | some node => decidable_of_iff
      (node.entity.isObjField = false ∧ node.kind.reference? = some (some b, key))
      ⟨fun hn => ⟨node, h, hn⟩, fun ⟨_, hn, hk⟩ => by cases h.symm.trans hn; exact hk⟩
  | none => isFalse fun ⟨_, hn, _⟩ => nomatch h.symm.trans hn

/-- The node of a field of an object, if there is one. -/
def fieldNode? (g : Pag) (obj : NodeId) (key : FieldKey) : Option NodeId :=
  g.find? (g.fieldContext obj) (.objField obj key)

theorem mem_refsOf {g : Pag} {r b : NodeId} :
    r ∈ g.refsOf b ↔ b < r ∧ ∃ key, g.Accesses r b key := by
  simp only [refsOf, nodesWhere, List.mem_filter, List.mem_range, Accesses]
  constructor
  · rintro ⟨-, h⟩
    cases hn : g.node? r with
    | none => simp [hn] at h
    | some node =>
      rw [hn] at h
      simp only [Option.any_some, Bool.and_eq_true, decide_eq_true_eq, Bool.not_eq_true',
        beq_iff_eq, Option.bind_eq_some_iff] at h
      obtain ⟨⟨hlt, he⟩, ⟨b', key⟩, hk, rfl⟩ := h
      exact ⟨hlt, key, node, .refl _, he, hk⟩
  · rintro ⟨hlt, key, node, hn, he, hk⟩
    exact ⟨node?_lt hn, by simp [hn, hlt, he, hk]⟩

theorem find?_eq_some_iff {g : Pag} {cid : ContextId} {e : Entity} {n : NodeId} :
    g.find? cid e = some n ↔
      (∃ node, g.node? n = some node ∧ node.cid = cid ∧ node.entity = e) ∧
      ∀ m < n, ∀ node, g.node? m = some node → ¬(node.cid = cid ∧ node.entity = e) := by
  unfold find?
  rw [Array.findIdx?_eq_some_iff_getElem]
  simp only [Bool.and_eq_true, beq_iff_eq, node?]
  constructor
  · rintro ⟨hlt, hn, hm⟩
    refine ⟨⟨g.nodes[n], Array.getElem?_eq_getElem hlt, hn⟩, fun m hmn node hnode hc => ?_⟩
    obtain ⟨hmlt, rfl⟩ := Array.getElem?_eq_some_iff.1 hnode
    have hf := hm m hmn
    simp [hc.1, hc.2] at hf
  · rintro ⟨⟨node, hnode, hn⟩, hm⟩
    obtain ⟨hlt, rfl⟩ := Array.getElem?_eq_some_iff.1 hnode
    refine ⟨hlt, hn, fun m hmn => ?_⟩
    have hf := hm m hmn _ (Array.getElem?_eq_getElem (Nat.lt_trans hmn hlt))
    simpa using hf

theorem lt_of_fieldNode? {g : Pag} {obj f : NodeId} {key : FieldKey}
    (h : g.fieldNode? obj key = some f) : f < g.nodes.size := by
  obtain ⟨⟨node, hn, -⟩, -⟩ := find?_eq_some_iff.1 h
  exact node?_lt hn

theorem lt_of_isContainer {g : Pag} {obj : NodeId} (h : g.isContainer obj = true) :
    obj < g.nodes.size := by
  unfold isContainer at h
  cases hn : g.node? obj with
  | none => simp [hn] at h
  | some node => exact node?_lt hn

theorem find?_eq_none_iff {g : Pag} {cid : ContextId} {e : Entity} : g.find? cid e = none ↔
    ∀ n x, g.node? n = some x → ¬(x.cid = cid ∧ x.entity = e) := by
  unfold find?
  rw [Array.findIdx?_eq_none_iff]
  simp only [Bool.and_eq_false_imp, beq_iff_eq, beq_eq_false_iff_ne]
  constructor
  · intro h n x hx hboth
    exact h x (Array.mem_of_getElem? hx) hboth.1 hboth.2
  · intro h x hx hcid he
    obtain ⟨n, hn⟩ := Array.getElem?_of_mem hx
    exact h n x hn ⟨hcid, he⟩

/-- What a node stands for. -/
def entity? (g : Pag) (n : NodeId) : Option Entity :=
  (g.node? n).map Node.entity

theorem mem_nodesOf {g : Pag} {v : ValueId} {n : NodeId} :
    n ∈ g.nodesOf v ↔ g.entity? n = some (.value v) := by
  unfold nodesOf nodesWhere entity?
  simp only [List.mem_filter, List.mem_range, Option.any_eq_true, beq_iff_eq,
    Option.map_eq_some_iff, and_iff_right_iff_imp]
  rintro ⟨x, hx, -⟩
  exact node?_lt hx

theorem lt_of_entity? {g : Pag} {n : NodeId} {e : Entity} (h : g.entity? n = some e) :
    n < g.nodes.size := by
  obtain ⟨x, hx, -⟩ := Option.map_eq_some_iff.1 h
  exact node?_lt hx

theorem entity?_of_find? {g : Pag} {cid : ContextId} {e : Entity} {n : NodeId}
    (h : g.find? cid e = some n) : g.entity? n = some e := by
  obtain ⟨⟨x, hx, -, he⟩, -⟩ := find?_eq_some_iff.1 h
  exact Option.map_eq_some_iff.2 ⟨x, hx, he⟩

/-- No entity has two nodes in a context. -/
def Unique (g : Pag) : Prop :=
  ∀ ⦃n n' x x'⦄, g.node? n = some x → g.node? n' = some x' → x.cid = x'.cid →
    x.entity = x'.entity → n = n'

namespace Extends

variable {g g' : Pag}

theorem rfl : g.Extends g where
  node := fun hn => ⟨_, hn, .rfl⟩
  edge := fun he => he

theorem trans {g₁ g₂ g₃ : Pag} (h : g₁.Extends g₂) (h' : g₂.Extends g₃) : g₁.Extends g₃ where
  node := fun hn => by
    obtain ⟨node', hn', hg⟩ := h.node hn
    obtain ⟨node'', hn'', hg'⟩ := h'.node hn'
    exact ⟨node'', hn'', hg.trans hg'⟩
  edge := fun he => h'.edge (h.edge he)

/-! ## What stays true -/

/-- A node that was there already comes from what it was. -/
theorem back (h : g.Extends g') {n : NodeId} {node' : Node} (hlt : n < g.nodes.size)
    (hn' : g'.node? n = some node') : ∃ node, g.node? n = some node ∧ node.Grows node' := by
  obtain ⟨node, hn⟩ := exists_node? hlt
  obtain ⟨node'', hn'', hg⟩ := h.node hn
  rw [hn'] at hn''
  cases hn''
  exact ⟨node, hn, hg⟩

theorem lt (h : g.Extends g') {n : NodeId} (hlt : n < g.nodes.size) : n < g'.nodes.size := by
  obtain ⟨node, hn⟩ := exists_node? hlt
  obtain ⟨node', hn', -⟩ := h.node hn
  exact node?_lt hn'

theorem size (h : g.Extends g') : g.nodes.size ≤ g'.nodes.size :=
  Nat.le_of_not_lt fun hlt => Nat.lt_irrefl _ (h.lt hlt)

theorem entity? (h : g.Extends g') {n : NodeId} {e : Entity} (hn : g.entity? n = some e) :
    g'.entity? n = some e := by
  obtain ⟨x, hx, rfl⟩ := Option.map_eq_some_iff.1 hn
  obtain ⟨x', hx', hgrow⟩ := h.node hx
  exact Option.map_eq_some_iff.2 ⟨x', hx', hgrow.entity⟩

/-- What an old node stands for is what it stood for. -/
theorem entity?_back (h : g.Extends g') {n : NodeId} {e : Entity} (hlt : n < g.nodes.size)
    (hn : g'.entity? n = some e) : g.entity? n = some e := by
  obtain ⟨x', hx', rfl⟩ := Option.map_eq_some_iff.1 hn
  obtain ⟨x, hx, hgrow⟩ := h.back hlt hx'
  exact Option.map_eq_some_iff.2 ⟨x, hx, hgrow.entity.symm⟩

/-- The kind of a node that is there does not change. -/
theorem kind_eq (h : g.Extends g') {n : NodeId} (hn : n < g.nodes.size) :
    (g'.node? n).map Node.kind = (g.node? n).map Node.kind := by
  obtain ⟨node, hnode⟩ := exists_node? hn
  obtain ⟨node', hn', hg⟩ := h.node hnode
  simp [hnode, hn', hg.kind]

theorem entity_eq (h : g.Extends g') {n : NodeId} (hn : n < g.nodes.size) :
    (g'.node? n).map Node.entity = (g.node? n).map Node.entity := by
  obtain ⟨node, hnode⟩ := exists_node? hn
  obtain ⟨node', hn', hg⟩ := h.node hnode
  simp [hnode, hn', hg.entity]

theorem cid (h : g.Extends g') {n : NodeId} {cid : ContextId}
    (hn : (g.node? n).map Node.cid = some cid) : (g'.node? n).map Node.cid = some cid := by
  obtain ⟨node, hnode, rfl⟩ := Option.map_eq_some_iff.1 hn
  obtain ⟨node', hn', hg⟩ := h.node hnode
  exact Option.map_eq_some_iff.2 ⟨node', hn', hg.cid⟩

theorem isObject (h : g.Extends g') {n : NodeId} (hn : g.isObject n = true) :
    g'.isObject n = true := by
  obtain ⟨node, hnode, hk⟩ := isObject_iff.1 hn
  obtain ⟨node', hn', hg⟩ := h.node hnode
  exact isObject_iff.2 ⟨node', hn', by rw [hg.kind]; exact hk⟩

theorem accesses (h : g.Extends g') {r b : NodeId} {key : FieldKey} (ha : g.Accesses r b key) :
    g'.Accesses r b key := by
  obtain ⟨node, hn, he, hk⟩ := ha
  obtain ⟨node', hn', hg⟩ := h.node hn
  exact ⟨node', hn', by rw [hg.entity]; exact he, by rw [hg.kind]; exact hk⟩

theorem site (h : g.Extends g') {n : NodeId} {site : SiteRef} (hs : site ∈ g.sitesOf n) :
    site ∈ g'.sitesOf n := by
  obtain ⟨node, hn, hmem⟩ := mem_sitesOf.1 hs
  obtain ⟨node', hn', hg⟩ := h.node hn
  exact mem_sitesOf.2 ⟨node', hn', hg.sites site hmem⟩

theorem find? (h : g.Extends g') {cid : ContextId} {e : Entity} {n : NodeId}
    (hf : g.find? cid e = some n) : g'.find? cid e = some n := by
  obtain ⟨⟨node, hn, hc, he⟩, hfirst⟩ := find?_eq_some_iff.1 hf
  obtain ⟨node', hn', hg⟩ := h.node hn
  refine find?_eq_some_iff.2
    ⟨⟨node', hn', hg.cid.trans hc, hg.entity.trans he⟩, fun m hm mnode' hm' hboth => ?_⟩
  -- the nodes before `n` were there already, and were not the one looked for
  obtain ⟨mnode, hmnode⟩ := exists_node? (Nat.lt_trans hm (node?_lt hn))
  obtain ⟨mnode'', hmnode'', hmg⟩ := h.node hmnode
  rw [hm'] at hmnode''
  cases hmnode''
  exact hfirst m hm mnode hmnode ⟨hmg.cid ▸ hboth.1, hmg.entity ▸ hboth.2⟩

theorem isContainer (h : g.Extends g') {obj : NodeId} (hn : obj < g.nodes.size) :
    g'.isContainer obj = g.isContainer obj := by
  unfold Pag.isContainer
  rw [h.kind_eq hn]

theorem fieldContext (h : g.Extends g') {obj : NodeId} (hn : obj < g.nodes.size) :
    g'.fieldContext obj = g.fieldContext obj := by
  unfold Pag.fieldContext
  rw [h.isContainer hn]

theorem fieldNode? (h : g.Extends g') {obj f : NodeId} {key : FieldKey} (hn : obj < g.nodes.size)
    (hf : g.fieldNode? obj key = some f) : g'.fieldNode? obj key = some f := by
  unfold Pag.fieldNode?
  rw [h.fieldContext hn]
  exact h.find? hf

theorem pts (h : g.Extends g') {n o : NodeId} (ho : o ∈ g.ptsOf n) : o ∈ g'.ptsOf n := by
  obtain ⟨node, hn, hmem⟩ := mem_ptsOf.1 ho
  obtain ⟨node', hn', hg⟩ := h.node hn
  exact mem_ptsOf.2 ⟨node', hn', hg.pts o hmem⟩

end Extends

/-- Nodes that grow stay what they are. -/
theorem Unique.of_extends {g g' : Pag} (h : g.Unique) (hg : g.Extends g')
    (size : g'.nodes.size = g.nodes.size) : g'.Unique := by
  intro n n' x x' hx hx' hcid he
  obtain ⟨y, hy, hgrow⟩ := hg.back (size ▸ node?_lt hx) hx
  obtain ⟨y', hy', hgrow'⟩ := hg.back (size ▸ node?_lt hx') hx'
  rw [hgrow.cid, hgrow'.cid] at hcid
  rw [hgrow.entity, hgrow'.entity] at he
  exact h hy hy' hcid he

/-! ## Making nodes -/

section addNode

variable (g : Pag) (cid : ContextId) (e : Entity) (kind : NodeKind)

@[simp] theorem edges_addNode : (g.addNode cid e kind).2.edges = g.edges := by
  unfold addNode
  split <;> rfl

@[simp] theorem baseRefs_addNode : (g.addNode cid e kind).2.baseRefs = g.baseRefs := by
  unfold addNode
  split <;> rfl

theorem addNode_extends : g.Extends (g.addNode cid e kind).2 where
  node := fun {n node} hn => by
    refine ⟨node, ?_, .rfl⟩
    unfold addNode
    split
    · exact hn
    · show (g.nodes.push _)[n]? = some node
      rw [Array.getElem?_push_lt (node?_lt hn), ← hn]
      exact (Array.getElem?_eq_getElem (node?_lt hn)).symm
  edge := fun he => by rw [edges_addNode]; exact he

theorem find?_addNode :
    (g.addNode cid e kind).2.find? cid e = some (g.addNode cid e kind).1.1 := by
  cases hf : g.find? cid e with
  | some n =>
    unfold addNode
    rw [hf]
    exact hf
  | none =>
    unfold addNode
    rw [hf]
    unfold find? at hf ⊢
    simp only [Array.findIdx?_push, hf]
    simp

variable {g cid e kind}

/-- A node is one that was there, or the new one, which has nothing yet. -/
theorem node?_addNode {n : NodeId} {node : Node}
    (h : (g.addNode cid e kind).2.node? n = some node) :
    g.node? n = some node ∨
      n = g.nodes.size ∧ node = { cid, entity := e, kind, pts := .empty g.backing } := by
  unfold addNode at h
  split at h
  · exact Or.inl h
  · replace h : (g.nodes.push _)[n]? = some node := h
    rw [Array.getElem?_push] at h
    split at h
    · rename_i hn
      cases h
      exact Or.inr ⟨hn, .refl _⟩
    · exact Or.inl h

theorem entity?_addNode {n : NodeId} {e' : Entity}
    (h : (g.addNode cid e kind).2.entity? n = some e') :
    g.entity? n = some e' ∨ n = g.nodes.size ∧ e' = e := by
  obtain ⟨x, hx, rfl⟩ := Option.map_eq_some_iff.1 h
  rcases node?_addNode hx with hx | ⟨hn, rfl⟩
  · exact Or.inl (Option.map_eq_some_iff.2 ⟨x, hx, .refl _⟩)
  · exact Or.inr ⟨hn, .refl _⟩

theorem Unique.addNode (h : g.Unique) (cid : ContextId) (e : Entity) (kind : NodeKind) :
    (g.addNode cid e kind).2.Unique := by
  intro n n' x x' hx hx' hcid he
  cases hf : g.find? cid e with
  | some m =>
    have hsame : (g.addNode cid e kind).2 = g := by
      unfold Pag.addNode
      rw [hf]
    rw [hsame] at hx hx'
    exact h hx hx' hcid he
  | none =>
    have hno := find?_eq_none_iff.1 hf
    rcases node?_addNode hx with hx | ⟨hn, rfl⟩
    · rcases node?_addNode hx' with hx' | ⟨-, rfl⟩
      · exact h hx hx' hcid he
      · exact absurd ⟨hcid, he⟩ (hno n x hx)
    · rcases node?_addNode hx' with hx' | ⟨hn', -⟩
      · exact absurd ⟨hcid.symm, he.symm⟩ (hno n' x' hx')
      · rw [hn, hn']

/-- A new node points to nothing, as one that is not there. -/
theorem ptsOf_addNode : (g.addNode cid e kind).2.ptsOf = g.ptsOf := by
  funext n
  unfold addNode ptsOf
  split
  · rfl
  · show (((g.nodes.push _)[n]?).map _).getD [] = _
    rw [Array.getElem?_push]
    split
    · rename_i hn
      subst hn
      simp [node?, ObjSet.toList_empty]
    · rfl

theorem mem_ptsOf_addNode {n o : NodeId} :
    o ∈ (g.addNode cid e kind).2.ptsOf n ↔ o ∈ g.ptsOf n := by
  rw [ptsOf_addNode]

theorem mem_sitesOf_addNode {n : NodeId} {site : SiteRef} :
    site ∈ (g.addNode cid e kind).2.sitesOf n ↔ site ∈ g.sitesOf n := by
  refine ⟨fun h => ?_, fun h => (g.addNode_extends cid e kind).site h⟩
  obtain ⟨node, hn, hs⟩ := mem_sitesOf.1 h
  rcases node?_addNode hn with hn | ⟨-, rfl⟩
  · exact mem_sitesOf.2 ⟨node, hn, hs⟩
  · exact absurd hs (by simp)

end addNode

/-! ## Drawing edges -/

section addEdge

variable (g : Pag) (kind : EdgeKind) (src dst : NodeId)

@[simp] theorem nodes_addEdge : (g.addEdge kind src dst).2.nodes = g.nodes := by
  unfold addEdge
  split <;> rfl

@[simp] theorem baseRefs_addEdge : (g.addEdge kind src dst).2.baseRefs = g.baseRefs := by
  unfold addEdge
  split <;> rfl

@[simp] theorem node?_addEdge (n : NodeId) : (g.addEdge kind src dst).2.node? n = g.node? n := by
  unfold node?
  rw [nodes_addEdge]

theorem addEdge_extends : g.Extends (g.addEdge kind src dst).2 where
  node := fun {n node} hn => ⟨node, by rw [node?_addEdge]; exact hn, .rfl⟩
  edge := fun he => by
    unfold addEdge
    split
    · simp [he]
    · exact he

variable {g kind src dst}

/-- An edge that is new is the one drawn. -/
theorem mem_edges_addEdge {e : FlowEdge} (h : e ∈ (g.addEdge kind src dst).2.edges) :
    e ∈ g.edges ∨
      (g.addEdge kind src dst).1 = true ∧ e = ⟨kind, src, dst⟩ ∧
        src < g.nodes.size ∧ dst < g.nodes.size := by
  unfold addEdge at h ⊢
  split
  · rename_i hc
    rw [if_pos hc] at h
    simp only [Bool.and_eq_true, decide_eq_true_eq] at hc
    rcases Array.mem_push.1 h with h | h
    · exact Or.inl h
    · exact Or.inr ⟨.refl _, h, hc.1.1, hc.1.2⟩
  · rename_i hc
    rw [if_neg hc] at h
    exact Or.inl h

/-- Between nodes that are there, the edge is there afterwards. -/
theorem mem_edges_of_addEdge (hs : src < g.nodes.size) (hd : dst < g.nodes.size) :
    ⟨kind, src, dst⟩ ∈ (g.addEdge kind src dst).2.edges := by
  unfold addEdge
  split
  · simp
  · rename_i hc
    simp only [hs, hd, decide_true, Bool.true_and, Bool.not_eq_true', Bool.not_eq_false] at hc
    exact hasEdge_iff.1 hc

theorem mem_edges_of_new (h : (g.addEdge kind src dst).1 = true) :
    ⟨kind, src, dst⟩ ∈ (g.addEdge kind src dst).2.edges := by
  unfold addEdge at h ⊢
  split
  · simp
  · rename_i hc
    rw [if_neg hc] at h
    cases h

/-- Edges join nodes, also the new one. -/
theorem ends_addEdge (h : ∀ e ∈ g.edges, e.src < g.nodes.size ∧ e.dst < g.nodes.size) :
    ∀ e ∈ (g.addEdge kind src dst).2.edges, e.src < (g.addEdge kind src dst).2.nodes.size ∧
      e.dst < (g.addEdge kind src dst).2.nodes.size := by
  intro e he
  rw [nodes_addEdge]
  rcases mem_edges_addEdge he with he | ⟨-, rfl, hs, hd⟩
  · exact h e he
  · exact ⟨hs, hd⟩

/-- An edge that is there is not drawn again. -/
theorem nodup_edges_addEdge (h : g.edges.toList.Nodup) :
    (g.addEdge kind src dst).2.edges.toList.Nodup := by
  unfold addEdge
  split
  · rename_i hc
    have hno : ⟨kind, src, dst⟩ ∉ g.edges := by
      rw [← hasEdge_iff]
      simp only [Bool.and_eq_true, Bool.not_eq_true'] at hc
      simp [hc.2]
    rw [Array.toList_push, ← List.concat_eq_append]
    exact h.concat (mt Array.mem_toList_iff.1 hno)
  · exact h

theorem addEdge_of_not_new (h : (g.addEdge kind src dst).1 = false) :
    (g.addEdge kind src dst).2 = g := by
  unfold addEdge at h ⊢
  split
  · rename_i hc
    rw [if_pos hc] at h
    cases h
  · exact .refl _

end addEdge

/-! ## Changing a node -/

theorem node?_modify (g : Pag) (n m : NodeId) (f : Node → Node) :
    ({ g with nodes := g.nodes.modify n f } : Pag).node? m =
      if n = m then (g.node? m).map f else g.node? m := by
  unfold node?
  rw [Array.getElem?_modify]

theorem modify_extends (g : Pag) (n : NodeId) {f : Node → Node}
    (hf : ∀ node : Node, node.Grows (f node)) :
    g.Extends { g with nodes := g.nodes.modify n f } where
  node := fun {m node} hm => by
    rw [node?_modify, hm]
    split
    · exact ⟨f node, .refl _, hf node⟩
    · exact ⟨node, .refl _, .rfl⟩
  edge := fun he => he

section addSite

variable (g : Pag) (n : NodeId) (site : SiteRef)

@[simp] theorem edges_addSite : (g.addSite n site).2.edges = g.edges := by
  unfold addSite
  split <;> rfl

@[simp] theorem baseRefs_addSite : (g.addSite n site).2.baseRefs = g.baseRefs := by
  unfold addSite
  split <;> rfl

@[simp] theorem size_addSite : (g.addSite n site).2.nodes.size = g.nodes.size := by
  unfold addSite
  split <;> simp

theorem addSite_extends : g.Extends (g.addSite n site).2 := by
  unfold addSite
  split
  · refine g.modify_extends n fun node => ⟨.refl _, .refl _, .refl _, fun s hs => ?_, fun _ h => h⟩
    exact List.mem_append_left _ hs
  · exact .rfl

theorem mem_sitesOf_of_addSite (hn : n < g.nodes.size) : site ∈ (g.addSite n site).2.sitesOf n := by
  unfold addSite
  split
  · obtain ⟨node, hnode⟩ := exists_node? hn
    refine mem_sitesOf.2 ⟨{ node with sites := node.sites ++ [site] }, ?_, by simp⟩
    rw [node?_modify, if_pos (.refl _), hnode]
    exact .refl _
  · rename_i hc
    simpa [hn] using hc

variable {g n site}

/-- A waiting call that is new is the one registered. -/
theorem mem_sitesOf_addSite {m : NodeId} {other : SiteRef}
    (h : other ∈ (g.addSite n site).2.sitesOf m) :
    other ∈ g.sitesOf m ∨ (g.addSite n site).1 = true ∧ m = n ∧ other = site := by
  unfold addSite at h ⊢
  split
  · rename_i hc
    rw [if_pos hc] at h
    obtain ⟨node, hm, hs⟩ := mem_sitesOf.1 h
    rw [node?_modify] at hm
    split at hm
    · rename_i hnm
      obtain ⟨old, hold, rfl⟩ := Option.map_eq_some_iff.1 hm
      rcases List.mem_append.1 hs with hs | hs
      · exact Or.inl (mem_sitesOf.2 ⟨old, hold, hs⟩)
      · exact Or.inr ⟨.refl _, hnm.symm, List.mem_singleton.1 hs⟩
    · exact Or.inl (mem_sitesOf.2 ⟨node, hm, hs⟩)
  · rename_i hc
    rw [if_neg hc] at h
    exact Or.inl h

theorem ptsOf_addSite : (g.addSite n site).2.ptsOf = g.ptsOf := by
  funext m
  unfold addSite ptsOf
  split
  · dsimp only
    rw [node?_modify]
    split
    · rw [Option.map_map]
      rfl
    · rfl
  · rfl

theorem mem_ptsOf_addSite {m o : NodeId} : o ∈ (g.addSite n site).2.ptsOf m ↔ o ∈ g.ptsOf m := by
  rw [ptsOf_addSite]

theorem addSite_of_not_new (h : (g.addSite n site).1 = false) : (g.addSite n site).2 = g := by
  unfold addSite at h ⊢
  split
  · rename_i hc
    rw [if_pos hc] at h
    cases h
  · exact .refl _

end addSite

section addPts

variable (g : Pag) (n : NodeId) (objs : ObjSet)

@[simp] theorem size_addPts : (g.addPts n objs).nodes.size = g.nodes.size := by
  simp [addPts]

theorem addPts_extends : g.Extends (g.addPts n objs) :=
  g.modify_extends n fun _ =>
    ⟨.refl _, .refl _, .refl _, fun _ h => h, fun _ h => ObjSet.mem_union.2 (Or.inl h)⟩

variable {g n objs}

theorem mem_ptsOf_addPts {m o : NodeId} : o ∈ (g.addPts n objs).ptsOf m ↔
    o ∈ g.ptsOf m ∨ m = n ∧ n < g.nodes.size ∧ o ∈ objs := by
  unfold addPts
  rw [mem_ptsOf, mem_ptsOf, node?_modify]
  by_cases hnm : n = m
  · subst hnm
    rw [if_pos (.refl _)]
    constructor
    · rintro ⟨node, hm, ho⟩
      obtain ⟨old, hold, rfl⟩ := Option.map_eq_some_iff.1 hm
      rcases ObjSet.mem_union.1 ho with ho | ho
      · exact Or.inl ⟨old, hold, ho⟩
      · exact Or.inr ⟨.refl _, node?_lt hold, ho⟩
    · rintro (⟨node, hm, ho⟩ | ⟨-, hlt, ho⟩)
      · exact ⟨_, by rw [hm]; exact .refl _, ObjSet.mem_union.2 (Or.inl ho)⟩
      · obtain ⟨node, hm⟩ := exists_node? hlt
        exact ⟨_, by rw [hm]; exact .refl _, ObjSet.mem_union.2 (Or.inr ho)⟩
  · rw [if_neg hnm]
    have hne : m ≠ n := fun h => hnm h.symm
    simp [hne]

theorem mem_sitesOf_addPts {m : NodeId} {site : SiteRef} :
    site ∈ (g.addPts n objs).sitesOf m ↔ site ∈ g.sitesOf m := by
  refine ⟨fun h => ?_, fun h => (g.addPts_extends n objs).site h⟩
  unfold addPts at h
  obtain ⟨node, hm, hs⟩ := mem_sitesOf.1 h
  rw [node?_modify] at hm
  split at hm
  · obtain ⟨old, hold, rfl⟩ := Option.map_eq_some_iff.1 hm
    exact mem_sitesOf.2 ⟨old, hold, hs⟩
  · exact mem_sitesOf.2 ⟨node, hm, hs⟩

end addPts

/-! ## Recording accesses -/

theorem nodes_addBaseRef (g : Pag) (base ref : ValueId) :
    (g.addBaseRef base ref).nodes = g.nodes := by
  unfold addBaseRef
  split <;> rfl

theorem edges_addBaseRef (g : Pag) (base ref : ValueId) :
    (g.addBaseRef base ref).edges = g.edges := by
  unfold addBaseRef
  split <;> rfl

theorem addBaseRef_extends (g : Pag) (base ref : ValueId) :
    g.Extends (g.addBaseRef base ref) where
  node := fun {n x} hx => ⟨x, by rw [node?_congr (g.nodes_addBaseRef base ref)]; exact hx, .rfl⟩
  edge := fun he => by rw [g.edges_addBaseRef base ref]; exact he

end Pag

end PointsTo
