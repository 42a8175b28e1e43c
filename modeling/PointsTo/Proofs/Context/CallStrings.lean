import Mathlib.Data.List.DropRight
import PointsTo.Proofs.Confined.Contexts

/-!
# Contexts are suffixes of call strings

A chain of calls starts where a method is entered and goes on call by call, each from the context
that the call before has returned; requests of other chains may come in between (`Returned`). The
context that is returned at the end reads as the last `k` items of the whole chain, although the
table never has more than the last `k` items of the chain before: dropping the oldest item at every
call comes to the same as dropping them all at the end.

Two levels of interning lie between an id and what it reads as. A proper table holds no item and no
sequence twice, so reading is injective at both levels, and ids are equal when what they read as is.
-/

namespace PointsTo

/-! ## The last items -/

/-- Dropping early does not show in the last items. -/
theorem rtake_rtake_concat {α : Type} (k : Nat) (xs : List α) (x : α) :
    (xs.rtake k ++ [x]).rtake k = (xs ++ [x]).rtake k := by
  cases k with
  | zero => simp
  | succ k =>
    rw [List.rtake_concat_succ, List.rtake_concat_succ]
    congr 1
    unfold List.rtake
    rw [List.drop_drop, List.length_drop]
    congr 1
    omega

/-! ## Requests -/

/-- What a call adds to the call string: its site, its receiver if it has one, or its callee. -/
def Sensitivity.callItems (site : Nat) (obj : Option Nat) (callee : Nat) :
    Sensitivity → List ContextItem
  | .callSite => [.callSite site callee]
  | .object => obj.toList.map .object
  | .function => [.function callee]

/-- What a call string starts with when `func` is entered. -/
def Sensitivity.entryItems (func : Nat) : Sensitivity → List ContextItem
  | .callSite | .object => []
  | .function => [.function func]

/-- A request for a context, from whichever caller. -/
inductive ContextRequest where
  | entry (func : Nat)
  | select (caller : ContextId) (site : Nat) (obj : Option Nat) (callee : Nat)

namespace ContextTable

def answer (t : ContextTable) : ContextRequest → ContextId × ContextTable
  | .entry func => t.entry func
  | .select caller site obj callee => t.select caller site obj callee

/-- The table after requests. -/
def serve (t : ContextTable) (rs : List ContextRequest) : ContextTable :=
  rs.foldl (fun t r => (t.answer r).2) t

/-- What a context reads as, item by item. -/
def read (t : ContextTable) (cid : ContextId) : Option (List (Option ContextItem)) :=
  (t.context? cid).map fun ctx => ctx.map t.item?

/-- The table has answered a chain of calls with `cid`, the calls having added the items. -/
inductive Returned (s : Sensitivity) (k : Nat) : ContextTable → ContextId → List ContextItem → Prop
  | entry (rs : List ContextRequest) (func : Nat) :
      Returned s k ((serve { sensitivity := s, k } rs).entry func).2
        ((serve { sensitivity := s, k } rs).entry func).1 (s.entryItems func)
  | call {t : ContextTable} {cid : ContextId} {items : List ContextItem}
      (h : Returned s k t cid items) (site : Nat) (obj : Option Nat) (callee : Nat) :
      Returned s k (t.select cid site obj callee).2 (t.select cid site obj callee).1
        (items ++ s.callItems site obj callee)
  | later {t : ContextTable} {cid : ContextId} {items : List ContextItem}
      (h : Returned s k t cid items) (r : ContextRequest) : Returned s k (t.answer r).2 cid items

/-! ## Tables under requests -/

variable {t t' : ContextTable} {cid cid' : ContextId} {items items' : List ContextItem}

theorem answer_extends (t : ContextTable) (r : ContextRequest) : t.Extends (t.answer r).2 := by
  cases r with
  | entry func => exact t.entry_extends func
  | select caller site obj callee => exact t.select_extends caller site obj callee

theorem serve_extends (t : ContextTable) (rs : List ContextRequest) : t.Extends (t.serve rs) := by
  induction rs generalizing t with
  | nil => exact .rfl
  | cons r rs ih => exact (t.answer_extends r).trans (ih _)

/-- Nothing is in the table twice, and contexts have at most `k` items. -/
abbrev Sound (t : ContextTable) : Prop :=
  t.Proper fun _ => True

theorem Sound.answer (h : t.Sound) (r : ContextRequest) : (t.answer r).2.Sound := by
  cases r with
  | entry func => exact h.entry fun _ => trivial
  | select caller site obj callee =>
    exact h.select (fun _ => trivial) (fun _ _ _ => trivial) fun _ => trivial

theorem Sound.serve (h : t.Sound) (rs : List ContextRequest) : (t.serve rs).Sound := by
  induction rs generalizing t with
  | nil => exact h
  | cons r rs ih => exact ih (h.answer r)

theorem Extends.size_le (h : t.Extends t') : t.contexts.size ≤ t'.contexts.size := by
  by_contra hlt
  have hlast : t'.contexts.size < t.contexts.size := by omega
  have hctx := h.context (Array.getElem?_eq_getElem hlast)
  have hin := (Array.getElem?_eq_some_iff.1 hctx).1
  omega

/-! ## Reading -/

/-- What an id reads as stays, once all its items are known. -/
theorem Extends.read (h : t.Extends t') (hread : t.read cid = some (items.map some)) :
    t'.read cid = some (items.map some) := by
  obtain ⟨ctx, hctx, hmap⟩ := Option.map_eq_some_iff.1 hread
  refine Option.map_eq_some_iff.2 ⟨ctx, h.context hctx, ?_⟩
  rw [← hmap]
  refine List.map_congr_left fun i hi => ?_
  have hsome : t.item? i ∈ items.map some := by
    rw [← hmap]
    exact List.mem_map_of_mem hi
  obtain ⟨x, -, hx⟩ := List.mem_map.1 hsome
  rw [← hx]
  exact h.item hx.symm

/-- One item on, the caller's items are followed by the new one and cut to the last `k`. -/
theorem read_extend (hread : t.read cid = some (items.map some)) (x : ContextItem) :
    (t.extend cid x).2.read (t.extend cid x).1 = some (((items ++ [x]).rtake t.k).map some) := by
  obtain ⟨ctx, hctx, -⟩ := Option.map_eq_some_iff.1 hread
  have hlater := (t.extend_extends cid x).read hread
  obtain ⟨ctx', hctx', hmap⟩ := Option.map_eq_some_iff.1 hlater
  have hsame : ctx' = ctx := by
    rw [(t.extend_extends cid x).context hctx] at hctx'
    exact (Option.some.inj hctx').symm
  have hitem : (t.extend cid x).2.item? (intern t.items x).1 = some x :=
    getElem?_intern t.items x
  refine Option.map_eq_some_iff.2 ⟨_, t.context?_extend cid x, ?_⟩
  have hext : t.extension cid x = (ctx ++ [(intern t.items x).1]).rtake t.k := by
    unfold extension
    rw [hctx]
    rfl
  have hlength : ctx.length = items.length := by
    have := congrArg List.length hmap
    rwa [List.length_map, List.length_map, hsame] at this
  rw [hext, List.rtake, List.rtake, List.map_drop, List.map_drop, List.map_append, List.map_append,
    ← hsame, hmap, hsame, List.length_append, List.length_append, hlength]
  simp only [List.map_cons, List.map_nil, hitem, List.length_cons, List.length_nil]

/-- Different sequences of ids read differently. -/
theorem Sound.map_item_injective (h : t.Sound) {ctx ctx' : Context}
    (hctx : ctx.map t.item? = items.map some) (hctx' : ctx'.map t.item? = items.map some) :
    ctx = ctx' := by
  induction items generalizing ctx ctx' with
  | nil =>
    rw [List.map_nil, List.map_eq_nil_iff] at hctx hctx'
    rw [hctx, hctx']
  | cons x items ih =>
    obtain ⟨i, l, rfl, hi, hl⟩ := List.map_eq_cons_iff.1 hctx
    obtain ⟨i', l', rfl, hi', hl'⟩ := List.map_eq_cons_iff.1 hctx'
    rw [h.items i i' x hi hi', ih hl hl']

/-- Ids are equal when they read the same. -/
theorem Sound.read_injective (h : t.Sound) (hread : t.read cid = some (items.map some))
    (hread' : t.read cid' = some (items.map some)) : cid = cid' := by
  obtain ⟨ctx, hctx, hmap⟩ := Option.map_eq_some_iff.1 hread
  obtain ⟨ctx', hctx', hmap'⟩ := Option.map_eq_some_iff.1 hread'
  have hsame := h.map_item_injective hmap hmap'
  rw [← hsame] at hctx'
  exact h.contexts cid cid' ctx hctx hctx'

theorem Sound.read_root (h : t.Sound) : t.read Context.root = some [] := by
  unfold read
  rw [h.root]
  rfl

/-- Entered without a caller, a function starts the call string. -/
theorem Sound.read_entry (h : t.Sound) (func : Nat) : (t.entry func).2.read (t.entry func).1 =
    some (((t.sensitivity.entryItems func).rtake t.k).map some) := by
  unfold ContextTable.entry
  cases t.sensitivity with
  | callSite =>
    rw [Sensitivity.entryItems, List.rtake_nil]
    exact h.read_root
  | object =>
    rw [Sensitivity.entryItems, List.rtake_nil]
    exact h.read_root
  | function =>
    have hroot : _ = some (([] : List ContextItem).map some) := h.read_root
    exact read_extend hroot (.function func)

/-- A call adds its items to those of the caller. The reserved id of element slots is no context;
ids must not have come that far where calls without receiver hand on the id of their caller. -/
theorem read_select (hread : t.read cid = some ((items.rtake t.k).map some))
    (hids : t.sensitivity = .object → t.contexts.size ≤ Context.container) (site : Nat)
    (obj : Option Nat) (callee : Nat) :
    (t.select cid site obj callee).2.read (t.select cid site obj callee).1 =
      some (((items ++ t.sensitivity.callItems site obj callee).rtake t.k).map some) := by
  have hextend : ∀ x, (t.extend cid x).2.read (t.extend cid x).1 =
      some (((items ++ [x]).rtake t.k).map some) := by
    intro x
    rw [read_extend hread x, rtake_rtake_concat]
  unfold select
  cases hs : t.sensitivity with
  | callSite => exact hextend _
  | function => exact hextend _
  | object =>
    cases obj with
    | some o => exact hextend _
    | none =>
      have hlt : cid < t.contexts.size := by
        obtain ⟨ctx, hctx, -⟩ := Option.map_eq_some_iff.1 hread
        exact (Array.getElem?_eq_some_iff.1 hctx).1
      have hne : cid ≠ Context.container := Nat.ne_of_lt (Nat.lt_of_lt_of_le hlt (hids hs))
      simp only [if_neg hne, Sensitivity.callItems, Option.toList_none, List.map_nil,
        List.append_nil]
      exact hread

/-! ## Chains -/

namespace Returned

variable {s : Sensitivity} {k : Nat}

/-- Chains run on tables that requests make. -/
theorem served (h : Returned s k t cid items) : t.Sound ∧ t.sensitivity = s ∧ t.k = k := by
  induction h with
  | entry rs func =>
    have hsound : (serve { sensitivity := s, k } rs).Sound := Sound.serve (proper_new _ s k) rs
    have hext := (serve_extends { sensitivity := s, k } rs).trans (entry_extends _ func)
    exact ⟨hsound.answer (.entry func), hext.sensitivity, hext.k⟩
  | @call t cid items h site obj callee ih =>
    have hext := t.select_extends cid site obj callee
    exact ⟨ih.1.answer (.select cid site obj callee), hext.sensitivity.trans ih.2.1,
      hext.k.trans ih.2.2⟩
  | @later t cid items h r ih =>
    have hext := t.answer_extends r
    exact ⟨ih.1.answer r, hext.sensitivity.trans ih.2.1, hext.k.trans ih.2.2⟩

/-- The id at the end of a chain reads as the last items of the chain. -/
theorem read_eq (h : Returned s k t cid items)
    (hids : s = .object → t.contexts.size ≤ Context.container) :
    t.read cid = some ((items.rtake k).map some) := by
  induction h with
  | entry rs func =>
    have hsound : (serve { sensitivity := s, k } rs).Sound := Sound.serve (proper_new _ s k) rs
    have hext := serve_extends { sensitivity := s, k } rs
    have hread := hsound.read_entry func
    rw [hext.sensitivity, hext.k] at hread
    exact hread
  | @call t cid items h site obj callee ih =>
    obtain ⟨-, rfl, rfl⟩ := h.served
    have hsize : t.sensitivity = .object → t.contexts.size ≤ Context.container := fun hobj =>
      Nat.le_trans (t.select_extends cid site obj callee).size_le (hids hobj)
    exact read_select (ih hsize) hsize site obj callee
  | @later t cid items h r ih =>
    have hext := t.answer_extends r
    exact hext.read (ih fun hobj => Nat.le_trans hext.size_le (hids hobj))

end Returned

/-- **Contexts are exactly the `k`-suffixes of call strings.** The id that a chain of calls ends
with reads as the last `k` items of the chain, ids of two chains are equal when these are, `0` is
the empty context, and no later request changes what an id stands for. -/
theorem returned_suffix {s : Sensitivity} {k : Nat} (h : Returned s k t cid items)
    (hids : s = .object → t.contexts.size ≤ Context.container) :
    t.read cid = some ((items.rtake k).map some) ∧
      (∃ ctx, t.context? cid = some ctx ∧ ctx.length = min k items.length) ∧
      (∀ cid' items', Returned s k t cid' items' →
        (cid = cid' ↔ items.rtake k = items'.rtake k)) ∧
      t.context? 0 = some [] ∧
      ∀ rs, (t.serve rs).context? cid = t.context? cid ∧ (t.serve rs).read cid = t.read cid := by
  have hread := h.read_eq hids
  have hsound := h.served.1
  obtain ⟨ctx, hctx, hmap⟩ := Option.map_eq_some_iff.1 hread
  have hlength : ctx.length = min k items.length := by
    have hlen := congrArg List.length hmap
    simp only [List.length_map, List.rtake, List.length_drop] at hlen
    omega
  refine ⟨hread, ⟨ctx, hctx, hlength⟩, fun cid' items' h' => ?_, hsound.root, fun rs => ?_⟩
  · have hread' := h'.read_eq hids
    constructor
    · rintro rfl
      rw [hread] at hread'
      exact List.map_injective_iff.2 (fun _ _ => Option.some.inj) (Option.some.inj hread')
    · intro heq
      rw [← heq] at hread'
      exact hsound.read_injective hread hread'
  · have hext := t.serve_extends rs
    rw [hctx, hread]
    exact ⟨hext.context hctx, hext.read hread⟩

/-- Two calls on receivers with a call without receiver between them, while another chain asks for
the context that the second one needs. -/
theorem returned_suffix_receivers :
    ∃ t cid, Returned .object 1 t cid [.object 7, .object 9] ∧
      (Sensitivity.object = .object → t.contexts.size ≤ Context.container) ∧
      t.read cid = some [some (.object 9)] := by
  have entered : Returned .object 1 _ _ _ := .entry [] 5
  have called := (entered.call 0 (some 7) 2).later (.select 0 4 (some 9) 6)
  have chain := (called.call 1 none 3).call 2 (some 9) 2
  refine ⟨_, _, chain, fun _ => ?_, (returned_suffix chain fun _ => ?_).1⟩
  · decide +kernel
  · decide +kernel

end ContextTable

end PointsTo
