import Mathlib.Order.Interval.Finset.Nat
import PointsTo.Proofs.Analysis.Scale
import PointsTo.Proofs.Analysis.Stability

/-!
# The queue gets empty

While facts are passed on, nodes are made for the fields of objects, and copies are drawn from them
and to them. So the graph grows under the loop that goes over it. But it grows within limits that
are there from the start (`Pag.GrownByFields`): a field has an object and a key, passing facts on
makes no objects, and the keys of the new nodes are keys of accesses that there are.

Each turn of the loop finds a fact that was not known before, or it leaves the queue shorter than it
was. So from every state that a round can begin in, the loop ends, with the queue empty
(`queue_empties`). This holds whatever the graph looks like, also where a value is read through
itself, and it takes no bound on the objects that a whole analysis makes.
-/

namespace PointsTo

namespace Pag

variable {g₀ g g' : Pag}

/-- Some access through a node has the key, or some field of an object. -/
def HasAccessKey (g : Pag) (key : FieldKey) : Prop :=
  ∃ n x base, g.node? n = some x ∧ x.kind.reference? = some (base, key)

theorem hasAccessKey_finite (g : Pag) : {key | g.HasAccessKey key}.Finite := by
  have hkeys := List.finite_toSet
    (g.nodes.toList.filterMap fun x => x.kind.reference?.map Prod.snd)
  refine hkeys.subset ?_
  rintro key ⟨n, x, base, hx, hkind⟩
  refine List.mem_filterMap.2 ⟨x, Array.mem_toList_iff.2 (Array.mem_of_getElem? hx), ?_⟩
  rw [hkind]
  rfl

/-- Where the fields can be that the objects of a graph can have. -/
def fieldPlaces (g : Pag) : Set (ContextId × Entity) :=
  {Context.root, Context.container} ×ˢ
    ((fun x : NodeId × FieldKey => Entity.objField x.1 x.2) ''
      ((g.objects : Set NodeId) ×ˢ {key | g.HasAccessKey key}))

theorem fieldPlaces_finite (g : Pag) : g.fieldPlaces.Finite :=
  (Set.toFinite _).prod ((g.objects.finite_toSet.prod g.hasAccessKey_finite).image _)

/-- The graph has grown from `g₀` by nothing but fields of objects, and each of them is there
once. -/
structure GrownByFields (g₀ g : Pag) : Prop where
  size : g₀.nodes.size ≤ g.nodes.size
  object : ∀ {n}, g.isObject n = true → g₀.isObject n = true
  key : ∀ {key}, g.HasAccessKey key → g₀.HasAccessKey key
  field : ∀ {n x}, g.node? n = some x → g₀.nodes.size ≤ n → (x.cid, x.entity) ∈ g₀.fieldPlaces
  once : ∀ {n n' x x'}, g.node? n = some x → g.node? n' = some x' → g₀.nodes.size ≤ n →
    g₀.nodes.size ≤ n' → x.cid = x'.cid → x.entity = x'.entity → n = n'

namespace GrownByFields

theorem rfl : g.GrownByFields g where
  size := Nat.le_refl _
  object := id
  key := id
  field hx hn := absurd (node?_lt hx) (Nat.not_lt.2 hn)
  once hx _ hn := absurd (node?_lt hx) (Nat.not_lt.2 hn)

/-- There is room for so many nodes only. -/
theorem size_le (h : g₀.GrownByFields g) :
    g.nodes.size ≤ g₀.nodes.size + g₀.fieldPlaces.ncard := by
  let place : NodeId → Option (ContextId × Entity) := fun n =>
    (g.node? n).map fun x => (x.cid, x.entity)
  let new : Finset NodeId := Finset.Ico g₀.nodes.size g.nodes.size
  have hle : (new : Set NodeId).ncard ≤ (some '' g₀.fieldPlaces).ncard := by
    refine Set.ncard_le_ncard_of_injOn place ?_ ?_ (g₀.fieldPlaces_finite.image _)
    · intro n hn
      obtain ⟨hle, hlt⟩ := Finset.mem_Ico.1 hn
      obtain ⟨x, hx⟩ := exists_node? hlt
      exact ⟨(x.cid, x.entity), h.field hx hle, by simp [place, hx]⟩
    · intro n hn n' hn' heq
      obtain ⟨hle, hlt⟩ := Finset.mem_Ico.1 hn
      obtain ⟨hle', hlt'⟩ := Finset.mem_Ico.1 hn'
      obtain ⟨x, hx⟩ := exists_node? hlt
      obtain ⟨x', hx'⟩ := exists_node? hlt'
      simp only [place, hx, hx', Option.map_some, Option.some.injEq, Prod.mk.injEq] at heq
      exact h.once hx hx' hle hle' heq.1 heq.2
  rw [Set.ncard_coe_finset, Nat.card_Ico,
    Set.ncard_image_of_injective _ (Option.some_injective _)] at hle
  omega

/-- Nodes get edges, or are shown objects. -/
theorem of_extends (h : g₀.GrownByFields g) (hg : g.Extends g')
    (size : g'.nodes.size = g.nodes.size) : g₀.GrownByFields g' := by
  have back : ∀ {n x'}, g'.node? n = some x' → ∃ x, g.node? n = some x ∧ x'.cid = x.cid ∧
      x'.entity = x.entity ∧ x'.kind = x.kind := by
    intro n x' hx'
    obtain ⟨x, hx, hgrow⟩ := hg.back (size ▸ node?_lt hx') hx'
    exact ⟨x, hx, hgrow.cid, hgrow.entity, hgrow.kind⟩
  refine ⟨size ▸ h.size, ?_, ?_, ?_, ?_⟩
  · intro n hn
    obtain ⟨x', hx', hobject⟩ := isObject_iff.1 hn
    obtain ⟨x, hx, -, -, hkind⟩ := back hx'
    exact h.object (isObject_iff.2 ⟨x, hx, hkind ▸ hobject⟩)
  · rintro key ⟨n, x', base, hx', hkey⟩
    obtain ⟨x, hx, -, -, hkind⟩ := back hx'
    exact h.key ⟨n, x, base, hx, hkind ▸ hkey⟩
  · intro n x' hx' hn
    obtain ⟨x, hx, hcid, hentity, -⟩ := back hx'
    rw [hcid, hentity]
    exact h.field hx hn
  · intro n m x' y' hx' hy' hn hm hcid hentity
    obtain ⟨x, hx, hxc, hxe, -⟩ := back hx'
    obtain ⟨y, hy, hyc, hye, -⟩ := back hy'
    exact h.once hx hy hn hm (hxc ▸ hyc ▸ hcid) (hxe ▸ hye ▸ hentity)

/-- An object gets a field with a key that some access has. -/
theorem addField (h : g₀.GrownByFields g) {obj : NodeId} (hobj : g.isObject obj = true)
    {key : FieldKey}
    (hkey : g.HasAccessKey key) (cloneOf : Option NodeId) : g₀.GrownByFields (g.addNode
      (g.fieldContext obj) (.objField obj key) (.reference (some obj) key cloneOf)).2 := by
  cases hfind : g.find? (g.fieldContext obj) (.objField obj key) with
  | some f =>
    -- The field is there already.
    unfold addNode
    rw [hfind]
    exact h
  | none =>
    have hno := find?_eq_none_iff.1 hfind
    have hnode : ∀ {n x}, (g.addNode (g.fieldContext obj) (.objField obj key)
        (.reference (some obj) key cloneOf)).2.node? n = some x → g.node? n = some x ∨
          (n = g.nodes.size ∧ x.cid = g.fieldContext obj ∧ x.entity = .objField obj key ∧
            x.kind = .reference (some obj) key cloneOf) := by
      intro n x hx
      refine (node?_addNode hx).imp_right ?_
      rintro ⟨hn, rfl⟩
      exact ⟨hn, .refl _, .refl _, .refl _⟩
    refine ⟨Nat.le_trans h.size (addNode_extends ..).size, ?_, ?_, ?_, ?_⟩
    · intro n hn
      obtain ⟨x, hx, hobject⟩ := isObject_iff.1 hn
      rcases hnode hx with hx | ⟨-, -, -, hkind⟩
      · exact h.object (isObject_iff.2 ⟨x, hx, hobject⟩)
      · rw [hkind] at hobject
        cases hobject
    · rintro key' ⟨n, x, base, hx, hkey'⟩
      rcases hnode hx with hx | ⟨-, -, -, hkind⟩
      · exact h.key ⟨n, x, base, hx, hkey'⟩
      · rw [hkind] at hkey'
        cases hkey'
        exact h.key hkey
    · intro n x hx hn
      rcases hnode hx with hx | ⟨-, hcid, hentity, -⟩
      · exact h.field hx hn
      · have hcontext : g.fieldContext obj = Context.root ∨
            g.fieldContext obj = Context.container := by
          unfold fieldContext
          split
          · exact Or.inr (.refl _)
          · exact Or.inl (.refl _)
        rw [hcid, hentity]
        exact ⟨hcontext, (obj, key), ⟨mem_objects.2 (h.object hobj), h.key hkey⟩, .refl _⟩
    · intro n n' x x' hx hx' hn hn' hcid hentity
      rcases hnode hx with hold | ⟨hlast, hc, he, -⟩
      · rcases hnode hx' with hold' | ⟨-, hc', he', -⟩
        · exact h.once hold hold' hn hn' hcid hentity
        · exact absurd ⟨hcid.trans hc', hentity.trans he'⟩ (hno n x hold)
      · rcases hnode hx' with hold' | ⟨hlast', -, -, -⟩
        · exact absurd ⟨hcid.symm.trans hc, hentity.symm.trans he⟩ (hno n' x' hold')
        · exact hlast.trans hlast'.symm

end GrownByFields

end Pag

namespace Analysis

open Filter

variable {p : Program} {g₀ : Pag} {a a' : Analysis} {n : NodeId}

/-! ## Visits -/

/-- The graph grows, and as long as it does by nothing but fields, it has room for no others. -/
structure AddsFields (g₀ : Pag) (a a' : Analysis) : Prop where
  extends_ : a.pag.Extends a'.pag
  fielded : g₀.GrownByFields a.pag → g₀.GrownByFields a'.pag

instance (g₀ : Pag) : IsPreorder Analysis (AddsFields g₀) where
  refl _ := ⟨.rfl, id⟩
  trans _ _ _ h h' := ⟨h.extends_.trans h'.extends_, fun hg => h'.fielded (h.fielded hg)⟩

theorem addsFields_of_extends (hg : a.pag.Extends a'.pag)
    (size : a'.pag.nodes.size = a.pag.nodes.size) : AddsFields g₀ a a' :=
  ⟨hg, fun h => h.of_extends hg size⟩

theorem pass_addsFields (objs : ObjSet) (dst : NodeId) : AddsFields g₀ a (a.pass objs dst) := by
  refine addsFields_of_extends ?_ ?_
  · rw [pag_pass]
    exact .rfl
  · rw [pag_pass]

theorem addCopy_addsFields (src dst : NodeId) : AddsFields g₀ a (a.addCopy src dst) := by
  refine addsFields_of_extends ?_ ?_
  · rw [pag_addCopy]
    exact a.pag.addEdge_extends .copy src dst
  · rw [pag_addCopy, Pag.nodes_addEdge]

theorem joinField_addsFields {obj : NodeId} (hobj : a.pag.isObject obj = true) (ref : NodeId) :
    AddsFields g₀ a (joinField obj a ref) := by
  unfold joinField
  split
  · exact refl_of (AddsFields g₀) a
  · rename_i base key href
    obtain ⟨x, hx, hkind⟩ := Option.bind_eq_some_iff.1 href
    have hfield : AddsFields g₀ a
        { a with builder := ((Build.fieldNode obj key (some ref)).run a.builder).2 } :=
      ⟨a.pag.addNode_extends _ _ _, fun h => h.addField hobj ⟨ref, x, base, hx, hkind⟩ (some ref)⟩
    dsimp only
    generalize (Build.fieldNode obj key (some ref)).run a.builder = r at hfield ⊢
    obtain ⟨field, builder⟩ := r
    have hloads : AddsFields g₀ { a with builder } ((a.pag.outEdges .load ref).foldl
        (fun a dst => a.addCopy field dst) { a with builder }) :=
      foldl_any fun dst _ a₁ _ => addCopy_addsFields field dst
    refine trans_of (AddsFields g₀) hfield (trans_of (AddsFields g₀) hloads ?_)
    exact foldl_any fun src _ a₁ _ => addCopy_addsFields src field

theorem joinFields_addsFields : AddsFields g₀ a (a.joinFields n) := by
  unfold joinFields
  dsimp only
  split
  · exact refl_of (AddsFields g₀) a
  · refine foldl_any fun obj _ a₁ _ => ?_
    split
    · rename_i hobj
      refine foldl_any fun ref _ a₂ h₂ => ?_
      exact joinField_addsFields (h₂.extends_.isObject hobj) ref
    · exact refl_of (AddsFields g₀) a₁

/-- A visit adds nothing to the graph but fields and copies. -/
theorem visit_addsFields : AddsFields g₀ a (visit p a n) := by
  have hthis : AddsFields g₀ a (passThis p a n) := foldl_any fun dst _ _ _ => pass_addsFields _ dst
  have hcopies : ∀ a : Analysis, AddsFields g₀ a (a.passCopies n) := fun a =>
    foldl_any fun dst _ _ _ => pass_addsFields _ dst
  have hsettle : ∀ a : Analysis, AddsFields g₀ a (a.settle n) := by
    intro a
    refine addsFields_of_extends ?_ ?_
    · rw [pag_settle]
      exact a.pag.addPts_extends n _
    · rw [pag_settle, Pag.size_addPts]
  have hjoined : AddsFields g₀ a ((passThis p a n).joinFields n) :=
    trans_of (AddsFields g₀) hthis joinFields_addsFields
  exact trans_of (AddsFields g₀) (trans_of (AddsFields g₀) hjoined (hcopies _)) (hsettle _)

/-! ## The loop -/

/-- One turn of the loop. It cannot fail, and if there was a node to look at, there is a new fact
then, or a shorter queue. -/
theorem propagateStep_advances {F : Failure → Prop} (h : a.Stable p) (hg : g₀.GrownByFields a.pag) :
    TryTerminates F AnyChange (propagateStep p) a fun more a' =>
      (a'.Stable p ∧ g₀.GrownByFields a'.pag) ∧
      (more = true → queueMeasure (g₀.nodes.size + g₀.fieldPlaces.ncard) a' <
        queueMeasure (g₀.nodes.size + g₀.fieldPlaces.ncard) a) := by
  unfold propagateStep
  refine .get_bind ?_
  split
  · exact .pure ⟨⟨h, hg⟩, nofun⟩
  · rename_i n rest hqueue
    have h₁ : Stable p { a with queue := rest } := h.setQueue rest
    have shorter : rest.length < a.queue.length := by simp [hqueue]
    refine .modify_bind trivial (.get_bind ?_)
    dsimp only
    split
    · rename_i hfresh
      refine .get_bind ?_
      split
      · rename_i hnone
        rw [← Option.not_isSome, h₁.grounded.node?_isSome h₁.canonical hfresh] at hnone
        cases hnone
      · obtain ⟨-, hknown, hnew⟩ := visit_queuesNew (p := p) (n := n) h₁.canonical
        have hg₂ : g₀.GrownByFields (visit p { a with queue := rest } n).pag :=
          visit_addsFields.fielded hg
        have h₂ := h₁.visit n
        refine .modify_bind trivial (.pure ⟨⟨h₂, hg₂⟩, fun _ => ?_⟩)
        refine queueMeasure_lt h₂.grounded hg₂.size_le hknown (hnew.imp_left fun heq => ?_)
        rw [heq]
        exact shorter
    · refine .pure ⟨⟨h₁, hg⟩, fun _ => ?_⟩
      exact queueMeasure_lt h₁.grounded hg.size_le Set.Subset.rfl (Or.inl shorter)

/-- If the loop ends without a failure, the queue is empty. -/
theorem propagate_queue (n : Nat) :
    TrySpec AnyChange (propagate p n) a fun _ a' => a'.queue = [] := by
  induction n generalizing a with
  | zero =>
    refine .get_bind ?_
    split
    · exact .throw
    · rename_i hempty
      exact .pure (by simpa using hempty)
  | succ n ih =>
    refine .get_bind ?_
    split
    · rename_i hempty
      exact .pure hempty
    · refine .modify_bind trivial (.get_bind ?_)
      split
      · refine .get_bind ?_
        split
        · exact .throw
        · exact .modify_bind trivial ih
      · exact ih

/-- From a stable state, with enough turns, the loop ends with an empty queue, and further turns
change nothing. -/
theorem propagate_empties (h : a.Stable p) : ∃ a', a'.queue = [] ∧
    ∀ᶠ fuel in atTop, (propagate p fuel).run.run a = (.ok (), a') := by
  let bound := a.pag.nodes.size + a.pag.fieldPlaces.ncard
  have hends : Terminates (fun _ => False) AnyChange (fun _ => False) (propagate p) a
    fun _ _ => True := by
    refine .loop (I := fun a' => a'.Stable p ∧ a.pag.GrownByFields a'.pag) (queueMeasure bound)
      (fun _ a' _ => ?_) (fun _ n => propagate_succ p n) (fun a' ha' => .of_tryTerminates ?_)
      ⟨h, .rfl⟩
    · unfold propagate
      refine .get_bind ?_
      split
      · exact .throw (Or.inl rfl)
      · exact .pure trivial
    · refine (propagateStep_advances ha'.1 ha'.2).mono fun more a₁ _ h₁ => ?_
      exact ⟨h₁.1, fun hmore _ => h₁.2 hmore⟩
  obtain ⟨⟨result, a'⟩, hrun, hfails⟩ := hends.settles fun _ => not_false
  cases result with
  | error e => exact absurd rfl (hfails e)
  | ok _ =>
    obtain ⟨fuel, hfuel⟩ := hrun.exists
    exact ⟨a', ((propagate_queue fuel).of_run hfuel).2, hrun⟩

/-! ## Rounds -/

/-- The analysis when a round has brought in the new edges. -/
def seeded (a : Analysis) : Analysis :=
  (seed { a with stats := { a.stats with iterations := a.stats.iterations + 1 } }).2

/-- That is where a round begins to pass facts on. -/
theorem run_spread (s : Setting) : (spread s).run.run a = (do
    propagate s.program s.fuel
    return !a.builder.newEdges.isEmpty : TryAnalysis Bool).run.run a.seeded :=
  rfl

/-- Wherever a round begins, passing facts on ends with an empty queue, after a number of turns that
depends on the state only. -/
theorem queue_empties (h : Resting p a) : ∃ a', a'.queue = [] ∧
    ∀ᶠ fuel in atTop, (propagate p fuel).run.run a.seeded = (.ok (), a') :=
  propagate_empties (h.stable.setStats _).seed

open Sample

/-- In `chain`, a value is read through itself. -/
theorem queue_empties_chain :
    let a :=
      ((enterEntries { program := chain, models := LibraryModel.standard, fuel := 20 }).run.run
        (ofGraph (Seed.direct.graph chain [main]) default)).2
    Resting chain a ∧ a.seeded.queue ≠ [] ∧ ∃ a', a'.queue = [] ∧
      ∀ᶠ fuel in atTop, (propagate chain fuel).run.run a.seeded = (.ok (), a') := by
  intro a
  have hresting : Resting chain a :=
    .enter 20 (.start (Seed.direct.graph_consistent chain [main]) default)
  exact ⟨hresting, by decide +kernel, queue_empties hresting⟩

end Analysis

end PointsTo
