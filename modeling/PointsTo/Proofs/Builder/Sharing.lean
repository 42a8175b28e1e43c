import PointsTo.Builder.Summarize
import PointsTo.Proofs.Fuel
import PointsTo.Proofs.Pag.Summary
import PointsTo.Proofs.Program.Sharing
import PointsTo.Proofs.Program.Vocabulary

/-!
# Summaries show what is shared

What a summary says of where objects go between slots that the method sees, where new ones are put
and what is returned is what the assignments and returns of the method say (`Summary.IsExact`). A
summary has one reference for all accesses to one field of one local, and which of them that is does
not matter: they all have the same base and key (`Summarizer.Canonical`).

So whether the summary says that the method shares what it returns can be read off the method
(`Summary.IsExact.returnsShared_iff`).
-/

namespace PointsTo

namespace Slot

/-- The slot in a summary. -/
def entity : Slot → Entity
  | value v => .value v
  | staticField field => .staticField field
  | globalField name => .modelSlot Naming.globalThis name

theorem entity_injective : Function.Injective entity := by
  intro a b h
  cases a <;> cases b <;> cases h <;> rfl

@[simp]
theorem entity_value (v : ValueId) : (value v).entity = .value v :=
  rfl

@[simp]
theorem entity_staticField (field : FieldSig) : (staticField field).entity = .staticField field :=
  rfl

theorem isShared_entity (a : Slot) : Summary.isShared a.entity = a.isShared := by
  cases a with
  | globalField => exact beq_self_eq_true _
  | value | staticField => rfl

end Slot

namespace Program

variable {p : Program} {v base : ValueId} {field : FieldSig} {a : Slot}

/-- Base and key of an access to a field. -/
def access? (p : Program) (v : ValueId) : Option (ValueId × FieldKey) :=
  match p.value? v with
  | some (.fieldRef base field) => some (base, .ofSig field)
  | some (.elementRef base _) => some (base, .element)
  | _ => none

theorem sharedSlot_fieldRef (h : p.value? v = some (.fieldRef base field)) :
    Summary.sharedSlot p (.value v) =
      ((p.globalField? base field).map Slot.entity).getD (.value v) := by
  simp only [Summary.sharedSlot, h, globalField?]
  split <;> rfl

/-- All accesses to one field of one local are the same slot, or none. -/
theorem sharedSlot_of_access (h : p.access? v = some (base, .ofSig field)) :
    Summary.sharedSlot p (.value v) =
      ((p.globalField? base field).map Slot.entity).getD (.value v) := by
  unfold access? at h
  split at h
  · rename_i base' field' hv
    obtain ⟨rfl, hkey⟩ := Prod.mk.inj (Option.some.inj h)
    have hname : field'.name = field.name := FieldKey.named.inj hkey
    rw [sharedSlot_fieldRef hv]
    unfold globalField?
    rw [hname]
  · cases h
  · cases h

/-- An element is no such slot. -/
theorem sharedSlot_of_element (h : p.access? v = some (base, .element)) :
    Summary.sharedSlot p (.value v) = .value v := by
  unfold access? at h
  split at h
  · cases h
  · rename_i hv
    simp only [Summary.sharedSlot, hv]
  · cases h

theorem sharedSlot_of_isLocal (h : p.isLocal v = true) :
    Summary.sharedSlot p (.value v) = .value v := by
  obtain ⟨value, hv, hlocal⟩ := Option.any_eq_true _ _ |>.1 h
  cases value with
  | localVar => simp only [Summary.sharedSlot, hv]
  | _ => cases hlocal

end Program

/-! ## Moves -/

namespace Summary

variable {p : Program} {s : Summary} {src dst : Entity} {id : StmtId}

theorem flows_address : (s.addEdge .address src dst id).flows p = s.flows p := by
  simp [flows, addEdge]

theorem flows_copy : (s.addEdge .copy src dst id).flows p =
    s.flows p ++ [(sharedSlot p src, sharedSlot p dst)] := by
  simp [flows, addEdge]

theorem flows_write : (s.addEdge .write src dst id).flows p = s.flows p ++
    if isShared (sharedSlot p dst) then [(sharedSlot p src, sharedSlot p dst)] else [] := by
  simp only [flows, addEdge, List.filterMap_append, List.filterMap_cons, List.filterMap_nil]
  split <;> simp_all

theorem flows_load : (s.addEdge .load src dst id).flows p = s.flows p ++
    if isShared (sharedSlot p src) then [(sharedSlot p src, sharedSlot p dst)] else [] := by
  simp only [flows, addEdge, List.filterMap_append, List.filterMap_cons, List.filterMap_nil]
  split <;> simp_all

/-- Where an object is put is a target if the object is new. -/
theorem targets_address {v : ValueId} :
    (s.addEdge .address (Build.entityOf p v) dst id).allocationTargets p =
      s.allocationTargets p ++ if p.isNew v then [sharedSlot p dst] else [] := by
  simp only [allocationTargets, addEdge, List.filterMap_append]
  congr 1
  unfold Build.entityOf Program.isNew
  cases hv : p.value? v with
  | none => simp [hv]
  | some value => cases value <;> simp [hv]

theorem targets_of_ne {kind : EdgeKind} (h : kind ≠ .address) :
    (s.addEdge kind src dst id).allocationTargets p = s.allocationTargets p := by
  cases kind with
  | address => exact absurd rfl h
  | copy | load | write | this | interprocedural => simp [allocationTargets, addEdge]

end Summary

/-- The references of a summary in the making are accesses to the fields that they stand for. -/
def Summarizer.Canonical (p : Program) (s : Summarizer) : Prop :=
  ∀ r ∈ s.refs, p.access? r.2 = some r.1

/-- A summary in the making later on, when it has got what assignments and returns say. -/
structure Summarizer.Follows (p : Program) (assigns : List (ValueId × ValueId))
    (returns : List ValueId) (s s' : Summarizer) : Prop where
  canonical : s'.Canonical p
  flows : s'.summary.flows p = s.summary.flows p ++
    (assigns.filterMap p.handsOn?).map (Prod.map Slot.entity Slot.entity)
  targets : s'.summary.allocationTargets p = s.summary.allocationTargets p ++
    ((assigns.filterMap p.allocates?).filter fun a => !a.isGlobalField).map Slot.entity
  returned : ∀ v, v ∈ s'.summary.returns ↔ v ∈ s.summary.returns ∨ v ∈ returns

namespace Summarizer.Follows

variable {p : Program} {s s' s'' : Summarizer} {as as' : List (ValueId × ValueId)}
  {rs rs' : List ValueId}

theorem trans (h : Follows p as rs s s') (h' : Follows p as' rs' s' s'') :
    Follows p (as ++ as') (rs ++ rs') s s'' where
  canonical := h'.canonical
  flows := by
    rw [h'.flows, h.flows, List.filterMap_append, List.map_append, List.append_assoc]
  targets := by
    rw [h'.targets, h.targets, List.filterMap_append, List.filter_append, List.map_append,
      List.append_assoc]
  returned v := by
    rw [h'.returned, h.returned, List.mem_append, or_assoc]

/-- Neither moves nor returns are added. -/
theorem same (h : s'.Canonical p) (hedges : s'.summary.edges = s.summary.edges)
    (hreturns : s'.summary.returns = s.summary.returns) : Follows p [] [] s s' where
  canonical := h
  flows := by simp [Summary.flows, hedges]
  targets := by simp [Summary.allocationTargets, hedges]
  returned v := by simp [hreturns]

/-- One assignment. -/
theorem one {a : ValueId × ValueId} (h : s'.Canonical p)
    (hflows : s'.summary.flows p = s.summary.flows p ++
      ((p.handsOn? a).map (Prod.map Slot.entity Slot.entity)).toList)
    (htargets : s'.summary.allocationTargets p = s.summary.allocationTargets p ++
      (((p.allocates? a).filter fun a => !a.isGlobalField).map Slot.entity).toList)
    (hreturns : s'.summary.returns = s.summary.returns) : Follows p [a] [] s s' where
  canonical := h
  flows := by
    rw [hflows]
    cases ha : p.handsOn? a with
    | none => simp [ha]
    | some x => simp [ha]
  targets := by
    rw [htargets]
    cases ha : p.allocates? a with
    | none => simp [ha]
    | some x => cases hx : x.isGlobalField <;> simp [ha, hx]
  returned v := by simp [hreturns]

/-- An assignment that says nothing of slots. -/
theorem idle {a : ValueId × ValueId} (h : Follows p [] [] s s') (hhands : p.handsOn? a = none)
    (hallocates : p.allocates? a = none) : Follows p [a] [] s s' where
  canonical := h.canonical
  flows := by
    rw [h.flows]
    simp [hhands]
  targets := by
    rw [h.targets]
    simp [hallocates]
  returned := h.returned

end Summarizer.Follows

namespace Summarize

open Summarizer (Canonical Follows)

variable {p : Program} {g : CallGraph} {s s₁ : Summarizer} {id : StmtId} {left right : ValueId}

/-- The reference that stands for an access is an access to the same field. -/
theorem canonical_follows (h : s.Canonical p) {base access : ValueId} {key : FieldKey}
    (haccess : p.access? access = some (base, key)) :
    TryTerminates p.IsMisplaced AnyChange (canonical base key access) s fun e s' => s'.Canonical p ∧
      s'.summary = s.summary ∧ ∃ ref, e = .value ref ∧ p.access? ref = some (base, key) := by
  refine .get_bind ?_
  split
  · rename_i ref href
    obtain ⟨l₁, l₂, hrefs, -⟩ := List.lookup_eq_some_iff.1 href
    refine .pure ⟨h, rfl, ref, rfl, h ((base, key), ref) ?_⟩
    rw [hrefs]
    exact List.mem_append_right _ List.mem_cons_self
  · refine .modify_bind trivial (.pure ⟨fun r hr => ?_, rfl, access, rfl, haccess⟩)
    rcases List.mem_append.1 hr with hr | hr
    · exact h r hr
    · rw [List.mem_singleton.1 hr]
      exact haccess

/-- A move that is all that the assignment says. -/
theorem addEdge_follows (h₁ : s₁.Canonical p) (hsame : s₁.summary = s.summary) {kind : EdgeKind}
    {src dst : Entity} (hflows : (s.summary.addEdge kind src dst id).flows p = s.summary.flows p ++
      ((p.handsOn? (left, right)).map (Prod.map Slot.entity Slot.entity)).toList)
    (htargets : (s.summary.addEdge kind src dst id).allocationTargets p =
      s.summary.allocationTargets p ++ (((p.allocates? (left, right)).filter fun a =>
        !a.isGlobalField).map Slot.entity).toList) :
    TryTerminates p.IsMisplaced AnyChange (change fun s => s.addEdge kind src dst id) s₁ fun _ s' =>
      Follows p [(left, right)] [] s s' := by
  refine .modify trivial (.one h₁ ?_ ?_ ?_)
  · rw [hsame]
    exact hflows
  · rw [hsame]
    exact htargets
  · rw [hsame]
    rfl

/-- An assignment that adds no move. -/
theorem pure_follows (h : s.Canonical p) (hhands : p.handsOn? (left, right) = none)
    (hallocates : ∀ a, p.allocates? (left, right) = some a → a.isGlobalField = true) :
    TryTerminates p.IsMisplaced AnyChange (pure () : Summarize Unit) s fun _ s' =>
      Follows p [(left, right)] [] s s' := by
  refine .pure (.one h ?_ ?_ rfl)
  · simp [hhands]
  · cases ha : p.allocates? (left, right) with
    | none => simp
    | some a => simp [hallocates a ha]

/-- What comes of reading an expression into a local: a move that says where it is read from, and
whether it is a new object. -/
structure Reads (p : Program) (right : ValueId) (move : Option (EdgeKind × Entity)) : Prop where
  none : move = none → p.source? right = none ∧ p.isNew right = false
  flows : ∀ {kind src}, move = some (kind, src) → ∀ (t : Summary) (dst : Entity) (id : StmtId),
    Summary.sharedSlot p dst = dst → (t.addEdge kind src dst id).flows p =
      t.flows p ++ ((p.source? right).map fun a => (a.entity, dst)).toList
  targets : ∀ {kind src}, move = some (kind, src) → ∀ (t : Summary) (dst : Entity) (id : StmtId),
    Summary.sharedSlot p dst = dst → (t.addEdge kind src dst id).allocationTargets p =
      t.allocationTargets p ++ if p.isNew right then [dst] else []

/-- No move, from what is neither a slot nor an object. -/
theorem reads_none (hsource : p.source? right = none) (hnew : p.isNew right = false) :
    Reads p right none where
  none _ := ⟨hsource, hnew⟩
  flows := by rintro _ _ ⟨⟩
  targets := by rintro _ _ ⟨⟩

/-- A copy from a slot. -/
theorem reads_copy {a : Slot} (hsource : p.source? right = some a) (hnew : p.isNew right = false)
    (ha : Summary.sharedSlot p a.entity = a.entity) :
    Reads p right (some (.copy, a.entity)) where
  none := by rintro ⟨⟩
  flows := by
    rintro _ _ ⟨⟩ t dst id hdst
    rw [Summary.flows_copy, ha, hdst, hsource]
    rfl
  targets := by
    rintro _ _ ⟨⟩ t dst id -
    rw [Summary.targets_of_ne (by decide), hnew]
    simp

/-- An object of any kind. -/
theorem reads_address (hsource : p.source? right = none) :
    Reads p right (some (.address, Build.entityOf p right)) where
  none := by rintro ⟨⟩
  flows := by
    rintro _ _ ⟨⟩ t dst id -
    rw [Summary.flows_address, hsource]
    simp
  targets := by
    rintro _ _ ⟨⟩ t dst id hdst
    rw [Summary.targets_address, hdst]

/-- A load, through a base that leads to the slot if there is one. -/
theorem reads_load {src : Entity} (hnew : p.isNew right = false)
    (hload : ∀ dst : Entity, (if Summary.isShared (Summary.sharedSlot p src) then
      [(Summary.sharedSlot p src, dst)] else []) =
        ((p.source? right).map fun a => (a.entity, dst)).toList) :
    Reads p right (some (.load, src)) where
  none := by rintro ⟨⟩
  flows := by
    rintro _ _ ⟨⟩ t dst id hdst
    rw [Summary.flows_load, hdst, hload]
  targets := by
    rintro _ _ ⟨⟩ t dst id -
    rw [Summary.targets_of_ne (by decide), hnew]
    simp

theorem reading_follows (h : s.Canonical p) :
    TryTerminates p.IsMisplaced AnyChange (reading p right) s fun move s' =>
      s'.Canonical p ∧ s'.summary = s.summary ∧ Reads p right move := by
  unfold reading
  cases hr : p.value? right with
  | none =>
    refine .pure ⟨h, rfl, reads_none ?_ ?_⟩
    · simp [Program.source?, hr]
    · simp [Program.isNew, hr]
  | some value =>
    cases value with
    | newObject | newArray | functionRef | globalThis =>
      exact .pure ⟨h, rfl, reads_address (by simp [Program.source?, hr])⟩
    | localVar | param | thisRef | captured =>
      have hentity : Build.entityOf p right = (Slot.value right).entity := by
        simp [Build.entityOf, hr]
      rw [hentity]
      refine .pure ⟨h, rfl, reads_copy ?_ ?_ ?_⟩
      · simp [Program.source?, hr]
      · simp [Program.isNew, hr]
      · simp [Summary.sharedSlot, hr]
    | staticRef field =>
      have hentity : Build.entityOf p right = (Slot.staticField field).entity := by
        simp [Build.entityOf, hr]
      rw [hentity]
      refine .pure ⟨h, rfl, reads_copy ?_ ?_ ?_⟩
      · simp [Program.source?, hr]
      · simp [Program.isNew, hr]
      · simp [Summary.sharedSlot]
    | cast op =>
      refine .pure ⟨h, rfl, ?_⟩
      split
      · rename_i hop
        refine reads_copy (a := .value op) ?_ ?_ (Program.sharedSlot_of_isLocal hop)
        · simp [Program.source?, hr, hop]
        · simp [Program.isNew, hr]
      · rename_i hop
        refine reads_none ?_ ?_
        · simp [Program.source?, hr, hop]
        · simp [Program.isNew, hr]
    | fieldRef base field =>
      have haccess : p.access? right = some (base, .ofSig field) := by simp [Program.access?, hr]
      refine .bind (canonical_follows h haccess) fun e s₁ _ h₁ => .pure ?_
      obtain ⟨h₁, hsame, ref, rfl, href⟩ := h₁
      refine ⟨h₁, hsame, reads_load (by simp [Program.isNew, hr]) fun dst => ?_⟩
      rw [Program.sharedSlot_of_access href]
      simp only [Program.source?, hr]
      cases ha : p.globalField? base field with
      | none => simp [Summary.isShared]
      | some a => simp [Slot.isShared_entity, (Program.isShared_of_globalField? ha).1]
    | elementRef base =>
      have haccess : p.access? right = some (base, .element) := by simp [Program.access?, hr]
      refine .bind (canonical_follows h haccess) fun e s₁ _ h₁ => .pure ?_
      obtain ⟨h₁, hsame, ref, rfl, href⟩ := h₁
      refine ⟨h₁, hsame, reads_load (by simp [Program.isNew, hr]) fun dst => ?_⟩
      rw [Program.sharedSlot_of_element href]
      simp [Program.source?, hr, Summary.isShared]
    | constant | compute | invoke =>
      refine .pure ⟨h, rfl, reads_none ?_ ?_⟩
      · simp [Program.source?, hr]
      · simp [Program.isNew, hr]

/-- An assignment to something that is no slot. -/
theorem pure_of_target? (h : s.Canonical p) (htarget : p.target? left = none) :
    TryTerminates p.IsMisplaced AnyChange (pure () : Summarize Unit) s fun _ s' =>
      Follows p [(left, right)] [] s s' := by
  refine pure_follows h (Program.handsOn?_of_target? htarget) fun a ha => ?_
  rw [Program.allocates?_of_target? htarget] at ha
  cases ha

/-- An assignment to a field, which is a slot if the field is one of the global object. -/
theorem write_follows (h : s.Canonical p) {base : ValueId} {key : FieldKey}
    (haccess : p.access? left = some (base, key)) (hleft : p.isLocal left = false)
    (hfield : ∀ a, p.target? left = some a → a.isShared = true ∧ a.isGlobalField = true)
    (hslot : ∀ ref, p.access? ref = some (base, key) → Summary.sharedSlot p (.value ref) =
      ((p.target? left).map Slot.entity).getD (.value ref)) :
      TryTerminates p.IsMisplaced AnyChange (do
      if p.isLocal right then
        let dst ← canonical base key left
        change fun s => s.addEdge .write (.value right) dst id) s fun _ s' =>
      Follows p [(left, right)] [] s s' := by
  split
  · rename_i hright
    refine .bind (canonical_follows h haccess) fun e s₁ _ h₁ => ?_
    obtain ⟨h₁, hsame, ref, rfl, href⟩ := h₁
    refine addEdge_follows h₁ hsame ?_ ?_
    · rw [Summary.flows_write, Program.handsOn?_of_isLocal_right hright,
        Program.sharedSlot_of_isLocal hright, hslot ref href]
      cases ha : p.target? left with
      | none => simp [Summary.isShared]
      | some a => simp [Slot.isShared_entity, (hfield a ha).1]
    · rw [Summary.targets_of_ne (by decide),
        Program.allocates?_of_isNew (Program.isNew_of_isLocal hright)]
      simp
  · rename_i hright
    refine pure_follows h (Program.handsOn?_of_not hleft (by simpa using hright)) fun a ha => ?_
    unfold Program.allocates? at ha
    split at ha
    · exact (hfield a ha).2
    · cases ha

/-- A static field takes locals and objects. -/
theorem static_follows (h : s.Canonical p) {field : FieldSig}
    (hl : p.value? left = some (.staticRef field)) : TryTerminates p.IsMisplaced AnyChange (do
      if p.isLocal right then
        change fun s => s.addEdge .copy (.value right) (.staticField field) id
      else if (p.value? right).any Value.isAllocation then
        change fun s => s.addEdge .address (Build.entityOf p right) (.staticField field) id) s
      fun _ s' => Follows p [(left, right)] [] s s' := by
  have hleft : p.isLocal left = false := by simp [Program.isLocal, hl, Value.isLocal]
  have htarget : p.target? left = some (.staticField field) := by simp [Program.target?, hl]
  split
  · rename_i hright
    refine addEdge_follows h rfl ?_ ?_
    · rw [Summary.flows_copy, Program.handsOn?_of_isLocal_right hright,
        Program.sharedSlot_of_isLocal hright, htarget]
      rfl
    · rw [Summary.targets_of_ne (by decide),
        Program.allocates?_of_isNew (Program.isNew_of_isLocal hright)]
      simp
  · rename_i hright
    have hhands := Program.handsOn?_of_not hleft (by simpa using hright)
    split
    · rename_i hobject
      refine addEdge_follows h rfl ?_ ?_
      · rw [Summary.flows_address, hhands]
        simp
      · rw [Summary.targets_address]
        unfold Program.allocates?
        rw [htarget]
        cases p.isNew right <;> rfl
    · rename_i hobject
      refine pure_follows h hhands fun a ha => ?_
      rw [Program.allocates?_of_isNew (Program.isNew_of_not hobject)] at ha
      cases ha

theorem assign_follows (h : s.Canonical p)
    (hstmt : (p.stmt? id).map Stmt.kind = some (.assign left right))
    (hright : (p.value? right).bind Value.invoke? = none) :
    TryTerminates p.IsMisplaced AnyChange (assign p id left right) s fun _ s' =>
      Follows p [(left, right)] [] s s' := by
  unfold assign
  cases hl : p.value? left with
  | none => exact pure_of_target? h (by simp [Program.target?, hl])
  | some value =>
    have hleft : value.isLocal = false → p.isLocal left = false := by
      intro hvalue
      simp [Program.isLocal, hl, hvalue]
    cases value with
    | localVar =>
      have hlocal : p.isLocal left = true := by simp [Program.isLocal, hl, Value.isLocal]
      have hslot := Program.sharedSlot_of_isLocal hlocal
      refine .bind (reading_follows h) fun move s₁ _ h₁ => ?_
      obtain ⟨h₁, hsame, hreads⟩ := h₁
      cases move with
      | none =>
        obtain ⟨hsource, hnew⟩ := hreads.none rfl
        refine .pure (.one h₁ ?_ ?_ (by rw [hsame]))
        · rw [hsame, Program.handsOn?_of_isLocal_left hlocal, hsource]
          simp
        · rw [hsame, Program.allocates?_of_isNew hnew]
          simp
      | some move =>
        obtain ⟨kind, src⟩ := move
        refine addEdge_follows h₁ hsame ?_ ?_
        · rw [hreads.flows rfl _ _ _ hslot, Program.handsOn?_of_isLocal_left hlocal]
          cases p.source? right <;> rfl
        · rw [hreads.targets rfl _ _ _ hslot]
          unfold Program.allocates?
          rw [Program.target?_of_isLocal hlocal]
          cases p.isNew right <;> rfl
    | fieldRef base field =>
      have htarget : p.target? left = p.globalField? base field := by simp [Program.target?, hl]
      refine write_follows h (by simp [Program.access?, hl]) (hleft rfl) ?_ ?_
      · rw [htarget]
        exact fun a ha => Program.isShared_of_globalField? ha
      · rw [htarget]
        exact fun ref href => Program.sharedSlot_of_access href
    | elementRef base =>
      have htarget : p.target? left = none := by simp [Program.target?, hl]
      refine write_follows h (by simp [Program.access?, hl]) (hleft rfl) ?_ ?_
      · simp [htarget]
      · rw [htarget]
        exact fun ref href => Program.sharedSlot_of_element href
    | staticRef => exact static_follows h hl
    | captured => exact pure_of_target? h (by simp [Program.target?, hl])
    | constant | newObject | newArray | functionRef | globalThis | param | thisRef | cast | compute
    | invoke =>
      have hmis : p.IsMisplaced (.nonLvalue id _) :=
        ⟨id, _, ⟨left, right, hstmt, hright, hl, rfl⟩, rfl⟩
      exact .throw hmis.ne_outOfFuel hmis

/-- A change that adds neither moves nor returns. -/
theorem change_follows (h : s.Canonical p) {f : Summary → Summary}
    (hedges : (f s.summary).edges = s.summary.edges)
    (hreturns : (f s.summary).returns = s.summary.returns) :
    TryTerminates p.IsMisplaced AnyChange (change f) s fun _ s' => Follows p [] [] s s' :=
  .modify trivial (.same h hedges hreturns)

/-- A call says nothing of slots. -/
theorem call_follows (h : s.Canonical p) :
    TryTerminates p.IsMisplaced AnyChange (call p g id) s fun _ s' => Follows p [] [] s s' := by
  unfold call
  split
  · exact .pure (.same h rfl rfl)
  · refine change_follows h ?_ ?_ <;> (split <;> rfl)
  · refine change_follows h ?_ ?_ <;> rw [Summary.foldl_addStaticCall]

theorem stmt_follows (h : s.Canonical p) :
    TryTerminates p.IsMisplaced AnyChange (stmt p g id) s fun _ s' =>
      Follows p (p.assignment? id).toList (p.return? id).toList s s' := by
  unfold stmt Program.assignment? Program.return?
  cases hkind : (p.stmt? id).map Stmt.kind with
  | none => exact .pure (.same h rfl rfl)
  | some kind =>
    cases kind with
    | assign left right =>
      dsimp only
      split
      · rename_i hinvoke
        refine (call_follows h).mono fun _ s' _ h' => ?_
        obtain ⟨hsource, hnew⟩ := Program.source?_of_invoke hinvoke
        exact h'.idle (Program.handsOn?_of_source? hsource) (Program.allocates?_of_isNew hnew)
      · rename_i hnone
        exact assign_follows h hkind (by simpa using hnone)
    | invoke => exact call_follows h
    | ret v =>
      cases v with
      | none => exact .pure (.same h rfl rfl)
      | some v =>
        dsimp only
        split
        · refine .modify trivial ⟨h, ?_, ?_, fun w => ?_⟩
          · dsimp only
            rw [Summary.addReturn_eq]
            simp [Summary.flows]
          · dsimp only
            rw [Summary.addReturn_eq]
            simp [Summary.allocationTargets]
          · rw [Summary.mem_addReturn]
            simp
        · exact .pure (.same h rfl rfl)
    | nop => exact .pure (.same h rfl rfl)

theorem stmts_follow (h : s.Canonical p) (stmts : List StmtId) :
    TryTerminates p.IsMisplaced AnyChange (stmts.forM (stmt p g)) s fun _ s' =>
      Follows p (stmts.filterMap p.assignment?) (stmts.filterMap p.return?) s s' := by
  induction stmts generalizing s with
  | nil => exact .pure (.same h rfl rfl)
  | cons id stmts ih =>
    refine .bind (stmt_follows h) fun _ s₁ _ h₁ => ?_
    refine (ih h₁.canonical).mono fun _ s₂ _ h₂ => ?_
    have hcons : ∀ {β : Type} (f : StmtId → Option β),
        (id :: stmts).filterMap f = (f id).toList ++ stmts.filterMap f := by
      intro β f
      cases hf : f id <;> simp [hf]
    rw [hcons, hcons]
    exact h₁.trans h₂

end Summarize

/-! ## Whole summaries -/

/-- The summary says of slots and returns what the method says. -/
structure Summary.IsExact (p : Program) (m : MethodSig) (s : Summary) : Prop where
  flows : s.flows p = (p.handsOn m).map (Prod.map Slot.entity Slot.entity)
  targets : s.allocationTargets p =
    ((p.allocations m).filter fun a => !a.isGlobalField).map Slot.entity
  returned : ∀ v, v ∈ s.returns ↔ v ∈ p.returnValues m

theorem Summarizer.canonical_start {p : Program} (f : FuncId) :
    Summarizer.Canonical p { summary := { func := f } } :=
  fun _ hr => absurd hr List.not_mem_nil

theorem Summarize.method_isExact {p : Program} {g : CallGraph} {f : FuncId} {m : MethodSig}
    {s : Summarizer} (h : method p g f m = (.ok (), s)) : s.summary.IsExact p m := by
  unfold method at h
  cases hdecl : p.method? m with
  | none =>
    rw [hdecl] at h
    cases h
    refine ⟨?_, ?_, fun v => ?_⟩
    · simp [Summary.flows, Program.handsOn, Program.assignments, hdecl]
    · simp [Summary.allocationTargets, Program.allocations, Program.assignments, hdecl]
    · simp [Program.returnValues, hdecl]
  | some decl =>
    rw [hdecl] at h
    obtain ⟨_, s₁, hloop, hchange⟩ := TryGuarantees.of_bind h
    have hstart : Summarizer.Canonical p { summary := { func := f } } :=
      Summarizer.canonical_start f
    have hfollows := ((stmts_follow hstart decl.stmts).trySpec.of_run hloop).2
    cases hchange
    dsimp only
    rw [Summary.foldl_addFree]
    refine ⟨?_, ?_, fun v => ?_⟩
    · unfold Program.handsOn
      rw [Program.assignments_eq hdecl]
      exact hfollows.flows
    · unfold Program.allocations
      rw [Program.assignments_eq hdecl]
      exact hfollows.targets
    · rw [Program.returnValues_eq hdecl, hfollows.returned]
      simp

/-- A method cannot be summarised if one of its statements assigns to no place, and for no other
reason. -/
theorem Summarize.method_fails {p : Program} {g : CallGraph} {f : FuncId} {m : MethodSig}
    {e : Failure} (h : (method p g f m).1 = .error e) : p.IsMisplaced e := by
  unfold method at h
  split at h
  · rename_i decl _
    have hbody : TryTerminates p.IsMisplaced AnyChange (body p g decl) { summary := { func := f } }
        fun _ _ => True :=
      .seq (stmts_follow (Summarizer.canonical_start f) decl.stmts).any fun _ _ _ =>
        .modify trivial trivial
    refine (hbody.1.fails h).resolve_left ?_
    rintro rfl
    exact hbody.2 h
  · cases h

namespace Summary.IsExact

variable {p : Program} {m : MethodSig} {s : Summary}

theorem mem_flows (h : s.IsExact p m) {e e' : Entity} : (e, e') ∈ s.flows p ↔
    ∃ a b, e = a.entity ∧ e' = b.entity ∧ (a, b) ∈ p.handsOn m := by
  rw [h.flows, List.mem_map]
  constructor
  · rintro ⟨⟨a, b⟩, hab, heq⟩
    cases heq
    exact ⟨a, b, rfl, rfl, hab⟩
  · rintro ⟨a, b, rfl, rfl, hab⟩
    exact ⟨(a, b), hab, rfl⟩

/-- The moves of the summary lead where the method hands objects on to. -/
theorem leads_iff (h : s.IsExact p m) {a : Slot} {e : Entity} :
    Reach.Leads (s.flows p) a.entity e ↔ ∃ b, e = b.entity ∧ Reach.Leads (p.handsOn m) a b := by
  constructor
  · intro hleads
    induction hleads with
    | refl => exact ⟨a, rfl, .refl⟩
    | tail _ hmove ih =>
      obtain ⟨b, rfl, hb⟩ := ih
      obtain ⟨b', c, heq, rfl, hbc⟩ := h.mem_flows.1 hmove
      cases Slot.entity_injective heq
      exact ⟨c, rfl, hb.tail hbc⟩
  · rintro ⟨b, rfl, hb⟩
    induction hb with
    | refl => exact .refl
    | tail _ hbc ih => exact ih.tail (h.mem_flows.2 ⟨_, _, rfl, rfl, hbc⟩)

/-- The summary says that the method shares what it returns, if a new object of the method gets both
to a shared slot and to a local that is returned. -/
theorem returnsShared_iff (h : s.IsExact p m) : s.returnsShared p = true ↔
    ∃ a ∈ p.allocations m, a.isGlobalField = false ∧ p.SharesFrom m a := by
  have hfrom : ∀ a : Slot, ((Reach.walk (s.flows p) [a.entity] []).any Summary.isShared &&
      s.returns.any fun r => (Reach.walk (s.flows p) [a.entity] []).contains (.value r)) = true ↔
      p.SharesFrom m a := by
    intro a
    have hreached : ∀ e, e ∈ Reach.walk (s.flows p) [a.entity] [] ↔
        ∃ b, e = b.entity ∧ Reach.Leads (p.handsOn m) a b := by
      intro e
      rw [Reach.mem_walk_iff, h.leads_iff]
    simp only [Bool.and_eq_true, List.any_eq_true, List.contains_iff_mem, hreached, h.returned]
    refine and_congr ⟨?_, ?_⟩ ⟨?_, ?_⟩
    · rintro ⟨_, ⟨b, rfl, hb⟩, hshared⟩
      exact ⟨b, hb, b.isShared_entity ▸ hshared⟩
    · rintro ⟨b, hb, hshared⟩
      exact ⟨_, ⟨b, rfl, hb⟩, b.isShared_entity.trans hshared⟩
    · rintro ⟨r, hr, b, heq, hb⟩
      rw [← Slot.entity_value r] at heq
      cases Slot.entity_injective heq
      exact ⟨r, hr, hb⟩
    · rintro ⟨r, hr, hb⟩
      exact ⟨r, hr, .value r, rfl, hb⟩
  unfold Summary.returnsShared
  rw [h.targets, List.any_map, List.any_filter, List.any_eq_true]
  refine exists_congr fun a => and_congr_right fun _ => ?_
  rw [Bool.and_eq_true, Bool.not_eq_true']
  exact and_congr_right fun _ => hfrom a

end Summary.IsExact

end PointsTo
