import PointsTo.Context

/-!
# Tables of contexts

A table only grows (`ContextTable.Extends`), and in a *proper* table no two ids stand for the same
item or the same context, contexts have at most `k` items, and the items are of a given kind. Asking
for a context keeps the table proper, so there are no more contexts than there are sequences of up
to `k` items.
-/

namespace PointsTo

/-! ## Interning -/

section Interning

variable {α : Type} [BEq α] {table : Array α} {x y : α} {i : Nat}

theorem getElem?_interned (h : table[i]? = some y) : (interned table x)[i]? = some y := by
  rw [getElem?_intern_of_lt table x (Array.getElem?_eq_some_iff.1 h).1]
  exact h

variable [LawfulBEq α]

/-- What a table holds was there, or is what was asked for. -/
theorem getElem?_interned_cases (h : (interned table x)[i]? = some y) :
    table[i]? = some y ∨ y = x ∧ x ∉ table ∧ i = table.size := by
  unfold interned intern at h
  split at h
  · exact Or.inl h
  · rename_i hnone
    rw [Array.getElem?_push] at h
    split at h
    · rename_i hi
      cases h
      refine Or.inr ⟨rfl, fun hx => ?_, hi⟩
      have hne := Array.findIdx?_eq_none_iff.1 hnone x hx
      simp at hne
    · exact Or.inl h

/-- No two ids stand for the same value. -/
def Distinct {α : Type} (table : Array α) : Prop :=
  ∀ (i j : Nat) (x : α), table[i]? = some x → table[j]? = some x → i = j

theorem Distinct.interned (h : Distinct table) (x : α) : Distinct (interned table x) := by
  intro i j y hi hj
  rcases getElem?_interned_cases hi with hi' | ⟨heq, hx, hi'⟩
  · rcases getElem?_interned_cases hj with hj' | ⟨heq, hx, -⟩
    · exact h i j y hi' hj'
    · exact absurd (heq ▸ Array.mem_of_getElem? hi') hx
  · rcases getElem?_interned_cases hj with hj' | ⟨-, -, hj'⟩
    · exact absurd (heq ▸ Array.mem_of_getElem? hj') hx
    · rw [hi', hj']

end Interning

namespace ContextTable

/-- The table later on. -/
structure Extends (t t' : ContextTable) : Prop where
  sensitivity : t'.sensitivity = t.sensitivity
  k : t'.k = t.k
  item : ∀ {i x}, t.item? i = some x → t'.item? i = some x
  context : ∀ {cid ctx}, t.context? cid = some ctx → t'.context? cid = some ctx

theorem Extends.rfl {t : ContextTable} : t.Extends t :=
  ⟨.refl _, .refl _, fun h => h, fun h => h⟩

theorem Extends.trans {t₁ t₂ t₃ : ContextTable} (h : t₁.Extends t₂) (h' : t₂.Extends t₃) :
    t₁.Extends t₃ where
  sensitivity := h'.sensitivity.trans h.sensitivity
  k := h'.k.trans h.k
  item := fun hx => h'.item (h.item hx)
  context := fun hctx => h'.context (h.context hctx)

/-- Every item satisfies `P`, contexts are sequences of at most `k` items, and nothing is in the
table twice. -/
structure Proper (P : ContextItem → Prop) (t : ContextTable) : Prop where
  item : ∀ {i x}, t.item? i = some x → P x
  items : Distinct t.items
  context : ∀ {cid ctx}, t.context? cid = some ctx →
    ctx.length ≤ t.k ∧ ∀ i ∈ ctx, i < t.items.size
  contexts : Distinct t.contexts
  root : t.context? Context.root = some []

/-- A new table has the empty context only. -/
theorem proper_new (P : ContextItem → Prop) (sensitivity : Sensitivity) (k : Nat) :
    Proper P { sensitivity, k } where
  item := fun h => by simp [item?] at h
  items := fun _ _ _ h => by simp at h
  context := fun {cid ctx} h => by
    obtain ⟨hlt, rfl⟩ := Array.getElem?_eq_some_iff.1 h
    have hcid : cid = 0 := by simpa using hlt
    subst hcid
    simp
  contexts := fun i j _ hi hj => by
    have hi := (Array.getElem?_eq_some_iff.1 hi).1
    have hj := (Array.getElem?_eq_some_iff.1 hj).1
    simp only [List.size_toArray, List.length_cons, List.length_nil] at hi hj
    omega
  root := .refl _

variable {P : ContextItem → Prop} {t : ContextTable}

theorem Proper.mono {P' : ContextItem → Prop} (h : t.Proper P) (hp : ∀ {x}, P x → P' x) :
    t.Proper P' :=
  ⟨fun hx => hp (h.item hx), h.items, h.context, h.contexts, h.root⟩

/-! ## One item on -/

section extend

variable (t : ContextTable) (caller : ContextId) (item : ContextItem)

/-- The sequence that is asked for. -/
def extension : Context :=
  ((t.context? caller).getD []).append (intern t.items item).1 t.k

theorem extend_extends : t.Extends (t.extend caller item).2 where
  sensitivity := rfl
  k := rfl
  item := fun hx => getElem?_interned hx
  context := fun hctx => getElem?_interned hctx

theorem context?_extend :
    (t.extend caller item).2.context? (t.extend caller item).1 = some (t.extension caller item) :=
  getElem?_intern t.contexts (t.extension caller item)

variable {t caller item}

theorem lt_size_intern {α : Type} [BEq α] [LawfulBEq α] (table : Array α) (x : α) :
    (intern table x).1 < (intern table x).2.size :=
  (Array.getElem?_eq_some_iff.1 (getElem?_intern table x)).1

theorem Proper.extend (h : t.Proper P) (hx : P item) : (t.extend caller item).2.Proper P where
  item := fun hi => by
    rcases getElem?_interned_cases hi with hi | ⟨rfl, -⟩
    · exact h.item hi
    · exact hx
  items := h.items.interned item
  context := fun {cid ctx} hctx => by
    have hsize : t.items.size ≤ (interned t.items item).size := size_le_size_intern t.items item
    rcases getElem?_interned_cases hctx with hctx | ⟨rfl, -⟩
    · exact ⟨(h.context hctx).1, fun i hi => Nat.lt_of_lt_of_le ((h.context hctx).2 i hi) hsize⟩
    · refine ⟨Context.length_append_le .., fun i hi => ?_⟩
      -- The items are those of the caller, and the new one.
      rcases List.mem_append.1 (List.mem_of_mem_drop hi) with hi | hi
      · cases hcaller : t.context? caller with
        | none => simp [hcaller] at hi
        | some ctx =>
          rw [hcaller] at hi
          exact Nat.lt_of_lt_of_le ((h.context hcaller).2 i hi) hsize
      · rw [List.mem_singleton.1 hi]
        exact lt_size_intern t.items item
  contexts := h.contexts.interned _
  root := getElem?_interned h.root

end extend

/-! ## Entering methods -/

theorem entry_extends (t : ContextTable) (func : Nat) : t.Extends (t.entry func).2 := by
  unfold entry
  split
  · exact .rfl
  · exact .rfl
  · exact t.extend_extends _ _

theorem Proper.entry (h : t.Proper P) {func : Nat}
    (hx : t.sensitivity = .function → P (.function func)) : (t.entry func).2.Proper P := by
  unfold ContextTable.entry
  split
  · exact h
  · exact h
  · rename_i hs
    exact h.extend (hx hs)

theorem Proper.context?_entry (h : t.Proper P) (func : Nat) :
    ((t.entry func).2.context? (t.entry func).1).isSome = true := by
  unfold ContextTable.entry
  split
  · exact Option.isSome_of_eq_some h.root
  · exact Option.isSome_of_eq_some h.root
  · exact Option.isSome_of_eq_some (t.context?_extend _ _)

theorem select_extends (t : ContextTable) (caller : ContextId) (site : Nat) (obj : Option Nat)
    (callee : Nat) : t.Extends (t.select caller site obj callee).2 := by
  unfold select
  split
  · exact t.extend_extends _ _
  · exact t.extend_extends _ _
  · exact .rfl
  · exact t.extend_extends _ _

/-- The item that a call adds is one of its site, its receiver and its callee. -/
theorem Proper.select (h : t.Proper P) {caller : ContextId} {site : Nat} {obj : Option Nat}
    {callee : Nat} (hsite : t.sensitivity = .callSite → P (.callSite site callee))
    (hobj : ∀ o, obj = some o → t.sensitivity = .object → P (.object o))
    (hcallee : t.sensitivity = .function → P (.function callee)) :
    (t.select caller site obj callee).2.Proper P := by
  unfold ContextTable.select
  split
  · rename_i hs
    exact h.extend (hsite hs)
  · rename_i o hs
    exact h.extend (hobj o rfl hs)
  · exact h
  · rename_i hs
    exact h.extend (hcallee hs)

/-- A call without receiver inherits the context of its caller, unless that is an element slot. -/
theorem Proper.context?_select (h : t.Proper P) {caller : ContextId} {site : Nat}
    {obj : Option Nat} {callee : Nat} (hcaller : (t.context? caller).isSome = true) :
    ((t.select caller site obj callee).2.context? (t.select caller site obj callee).1).isSome =
      true := by
  unfold ContextTable.select
  split
  · exact Option.isSome_of_eq_some (t.context?_extend _ _)
  · exact Option.isSome_of_eq_some (t.context?_extend _ _)
  · dsimp only
    split
    · exact Option.isSome_of_eq_some h.root
    · exact hcaller
  · exact Option.isSome_of_eq_some (t.context?_extend _ _)

end ContextTable

end PointsTo
