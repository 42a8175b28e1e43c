import PointsTo.Proofs.Pag.Growth

/-!
# Where nodes belong

Static fields, the global object and exports are shared by all contexts, so their nodes are in the
root context. A field of an object is in the context of the object's fields, and the object was
there first. A graph in which this is so is *in place* (`Pag.InPlace`), and it stays so as long as
new nodes are put where they belong.

In such a graph, if no entity has two nodes in one context, something shared has one node at most,
and so has a field of an object: it is the node that the object has for the key.
-/

namespace PointsTo

/-- The entity is the same in all contexts. -/
def Entity.IsShared : Entity → Prop
  | .staticField _ | .globalThis | .exported .. => True
  | _ => False

namespace Pag

variable {g g' : Pag} {cid : ContextId} {e : Entity} {n n' obj : NodeId} {key : FieldKey}

/-- A new node for the entity may be put there. -/
structure Belongs (g : Pag) (cid : ContextId) (e : Entity) : Prop where
  shared : e.IsShared → cid = Context.root
  field : ∀ {obj key}, e = .objField obj key → obj < g.nodes.size ∧ cid = g.fieldContext obj

theorem entity?_of_fieldOf? (h : g.fieldOf? obj key = some n) :
    g.entity? n = some (.objField obj key) := by
  have hn := (List.mem_filter.1 (List.mem_of_getLast? h)).2
  simp only [Option.any_eq_true, Bool.and_eq_true, beq_iff_eq] at hn
  obtain ⟨x, hx, -, he⟩ := hn
  exact Option.map_eq_some_iff.2 ⟨x, hx, he⟩

/-- All nodes are where they belong. -/
structure InPlace (g : Pag) : Prop where
  shared : ∀ {n x}, g.node? n = some x → x.entity.IsShared → x.cid = Context.root
  field : ∀ {n x obj key}, g.node? n = some x → x.entity = .objField obj key →
    obj < n ∧ x.cid = g.fieldContext obj

/-- What is neither shared nor a field may be anywhere. -/
theorem belongs_of_plain (hshared : ¬e.IsShared) (hfield : e.isObjField = false) :
    g.Belongs cid e where
  shared h := absurd h hshared
  field h := by
    rw [h] at hfield
    cases hfield

theorem belongs_field (hobj : obj < g.nodes.size) :
    g.Belongs (g.fieldContext obj) (.objField obj key) where
  shared h := absurd h id
  field h := by
    cases h
    exact ⟨hobj, rfl⟩

namespace InPlace

theorem of_extends (h : g.InPlace) (hg : g.Extends g') (size : g'.nodes.size = g.nodes.size) :
    g'.InPlace where
  shared hx hshared := by
    obtain ⟨y, hy, hgrow⟩ := hg.back (size ▸ node?_lt hx) hx
    rw [hgrow.entity] at hshared
    rw [hgrow.cid]
    exact h.shared hy hshared
  field hx he := by
    have hlt := size ▸ node?_lt hx
    obtain ⟨y, hy, hgrow⟩ := hg.back hlt hx
    rw [hgrow.entity] at he
    obtain ⟨hobj, hcid⟩ := h.field hy he
    rw [hgrow.cid, hg.fieldContext (Nat.lt_trans hobj hlt)]
    exact ⟨hobj, hcid⟩

theorem addNode (h : g.InPlace) (hb : g.Belongs cid e) (kind : NodeKind) :
    (g.addNode cid e kind).2.InPlace where
  shared hx hshared := by
    rcases node?_addNode hx with hx | ⟨-, rfl⟩
    · exact h.shared hx hshared
    · exact hb.shared hshared
  field hx he := by
    have hg := g.addNode_extends cid e kind
    rcases node?_addNode hx with hx | ⟨rfl, rfl⟩
    · obtain ⟨hobj, hcid⟩ := h.field hx he
      rw [hg.fieldContext (Nat.lt_trans hobj (node?_lt hx))]
      exact ⟨hobj, hcid⟩
    -- The object was there before the new node.
    · obtain ⟨hobj, hcid⟩ := hb.field he
      rw [hg.fieldContext hobj]
      exact ⟨hobj, hcid⟩

/-- Something shared, or a field, has one node only, whatever the context. -/
theorem eq_of_entity (h : g.InPlace) (hu : g.Unique) (he : e.IsShared ∨ e.isObjField = true)
    (hn : g.entity? n = some e) (hn' : g.entity? n' = some e) : n = n' := by
  obtain ⟨x, hx, rfl⟩ := Option.map_eq_some_iff.1 hn
  obtain ⟨x', hx', hsame⟩ := Option.map_eq_some_iff.1 hn'
  refine hu hx hx' ?_ hsame.symm
  rcases he with hshared | hfield
  · rw [h.shared hx hshared, h.shared hx' (hsame ▸ hshared)]
  · cases hentity : x.entity with
    | objField obj key =>
      rw [(h.field hx hentity).2, (h.field hx' (hsame.trans hentity)).2]
    | _ =>
      rw [hentity] at hfield
      cases hfield

/-- The object has the node for the key. -/
theorem fieldOf?_eq (h : g.InPlace) (hu : g.Unique) (hn : g.entity? n = some (.objField obj key)) :
    g.fieldOf? obj key = some n := by
  obtain ⟨x, hx, he⟩ := Option.map_eq_some_iff.1 hn
  have hlt := (h.field hx he).1
  have hmem : ∀ m, m ∈ g.nodesWhere (fun i y => obj < i && y.entity == .objField obj key) ↔
      m = n := by
    intro m
    simp only [nodesWhere, List.mem_filter, List.mem_range, Option.any_eq_true, Bool.and_eq_true,
      decide_eq_true_eq, beq_iff_eq]
    constructor
    · rintro ⟨-, y, hy, -, hy'⟩
      exact h.eq_of_entity hu (Or.inr rfl) (Option.map_eq_some_iff.2 ⟨y, hy, hy'⟩) hn
    · rintro rfl
      exact ⟨node?_lt hx, x, hx, hlt, he⟩
  unfold fieldOf?
  cases hlast : (g.nodesWhere fun i y => obj < i && y.entity == .objField obj key).getLast? with
  | none =>
    rw [List.getLast?_eq_none_iff.1 hlast] at hmem
    exact absurd ((hmem n).2 rfl) (by simp)
  | some m => rw [(hmem m).1 (List.mem_of_getLast? hlast)]

end InPlace

end Pag

end PointsTo
