import PointsTo.Proofs.CallGraph.Growth

/-!
# What a call graph remembers

A method that has a node is found under it from then on, so asking again changes nothing. A call
graph has a call *once* (`CallGraph.HasCallOnce`) if recording it once more leaves its edge as it
is. It does from the first time on, whatever else is recorded.

Nothing is asked of the order of the statements at an edge: a statement that is not inserted again
has its place before all later ones, and no other statement gets in between.
-/

namespace PointsTo

/-- What is found first stays so while elements come at the end, and change in nothing that the test
sees. -/
theorem findIdx?_mono {α : Type} {test : α → Bool} {xs ys : Array α} {i : Nat}
    (h : ∀ {j : Nat} {x}, xs[j]? = some x → ∃ y, ys[j]? = some y ∧ test y = test x)
    (hi : xs.findIdx? test = some i) : ys.findIdx? test = some i := by
  have later : ∀ {j} (hj : j < xs.size), ∃ hj' : j < ys.size, test ys[j] = test xs[j] := by
    intro j hj
    obtain ⟨y, hy, hsame⟩ := h (Array.getElem?_eq_getElem hj)
    obtain ⟨hj', rfl⟩ := Array.getElem?_eq_some_iff.1 hy
    exact ⟨hj', hsame⟩
  obtain ⟨hlt, htest, hfirst⟩ := Array.findIdx?_eq_some_iff_getElem.1 hi
  obtain ⟨hlt', hsame⟩ := later hlt
  refine Array.findIdx?_eq_some_iff_getElem.2 ⟨hlt', hsame.trans htest, fun j hj => ?_⟩
  obtain ⟨hj', hsame⟩ := later (Nat.lt_trans hj hlt)
  rw [hsame]
  exact hfirst j hj

namespace Ascending

variable {x : Nat} {xs : List Nat}

/-- A number that has been inserted is not inserted again. -/
theorem insert_insert (x : Nat) (xs : List Nat) : insert x (insert x xs) = insert x xs := by
  induction xs with
  | nil => simp [insert]
  | cons z zs ih => grind [insert]

/-- Nor if another number has been inserted meanwhile. -/
theorem insert_insert_of_eq (h : insert x xs = xs) (y : Nat) :
    insert x (insert y xs) = insert y xs := by
  induction xs with
  | nil => simp [insert] at h
  | cons z zs ih => grind [insert]

end Ascending

namespace CallEdge

variable {e : CallEdge} {stmt : StmtId} {kind : CallKind}

theorem addCall_addCall (e : CallEdge) (stmt : StmtId) (kind : CallKind) :
    (e.addCall stmt kind).addCall stmt kind = e.addCall stmt kind := by
  cases kind <;> simp [addCall, Ascending.insert_insert]

/-- A call that is recorded stays so when another one is recorded. -/
theorem addCall_addCall_of_eq (h : e.addCall stmt kind = e) (stmt' : StmtId) (kind' : CallKind) :
    (e.addCall stmt' kind').addCall stmt kind = e.addCall stmt' kind' := by
  have same : ∀ {k}, (e.addCall stmt kind).calls k = e.calls k := by simp [h]
  cases kind <;> cases kind' <;> simp only [addCall, mk.injEq, true_and, and_true]
  case direct.direct => exact Ascending.insert_insert_of_eq (same (k := .direct)) stmt'
  case special.special => exact Ascending.insert_insert_of_eq (same (k := .special)) stmt'
  case indirect.indirect => exact Ascending.insert_insert_of_eq (same (k := .indirect)) stmt'
  case direct.special | direct.indirect => exact same (k := .direct)
  case special.direct | special.indirect => exact same (k := .special)
  case indirect.direct | indirect.special => exact same (k := .indirect)

end CallEdge

namespace CallGraph

variable {g g' : CallGraph} {src dst : FuncId} {stmt : StmtId} {kind : CallKind}

/-! ## Methods -/

/-- Later nodes come after the first one of the method. -/
theorem Grows.funcId? {m : MethodSig} {f : FuncId} (h : g.Grows g') (hf : g.funcId? m = some f) :
    g'.funcId? m = some f := by
  refine findIdx?_mono (fun {j x} hx => ?_) hf
  have hold : g.methodOf? j = some x.method := by
    unfold methodOf? node?
    rw [hx]
    rfl
  obtain ⟨y, hy, hsame⟩ := Option.map_eq_some_iff.1 (h.method hold)
  exact ⟨y, hy, by rw [hsame]⟩

theorem funcId?_nodeFor (g : CallGraph) (p : Program) (m : MethodSig) (missing : FuncKind) :
    (g.nodeFor p m missing).2.funcId? m = some (g.nodeFor p m missing).1 := by
  obtain ⟨kind, isSdk, heq⟩ := g.nodeFor_eq p m missing
  rw [heq]
  unfold addNode
  split
  · assumption
  · rename_i hnone
    unfold CallGraph.funcId? at hnone ⊢
    rw [Array.findIdx?_push, hnone]
    simp

theorem nodeFor_of_funcId? {m : MethodSig} {f : FuncId} (h : g.funcId? m = some f) (p : Program)
    (missing : FuncKind) : g.nodeFor p m missing = (f, g) := by
  obtain ⟨kind, isSdk, heq⟩ := g.nodeFor_eq p m missing
  rw [heq]
  unfold addNode
  rw [h]

/-! ## Calls -/

/-- The edge between the methods has the call, and does not get it twice. -/
def HasCallOnce (g : CallGraph) (src dst : FuncId) (stmt : StmtId) (kind : CallKind) : Prop :=
  ∃ e, g.edge? src dst = some e ∧ e.addCall stmt kind = e

theorem HasCallOnce.congr (h : g.HasCallOnce src dst stmt kind)
    (hedges : g'.edges = g.edges) : g'.HasCallOnce src dst stmt kind := by
  unfold HasCallOnce edge? at h ⊢
  rwa [hedges]

theorem hasCallOnce_addCall (g : CallGraph) (src dst : FuncId) (stmt : StmtId) (kind : CallKind) :
    (g.addCall src dst stmt kind).2.HasCallOnce src dst stmt kind := by
  unfold HasCallOnce
  rw [edge?_addCall_eq, if_pos ⟨rfl, rfl⟩]
  exact ⟨_, rfl, CallEdge.addCall_addCall ..⟩

theorem HasCallOnce.addCall (h : g.HasCallOnce src dst stmt kind)
    (src' dst' : FuncId) (stmt' : StmtId)
    (kind' : CallKind) : (g.addCall src' dst' stmt' kind').2.HasCallOnce src dst stmt kind := by
  obtain ⟨e, he, hsame⟩ := h
  unfold HasCallOnce
  rw [edge?_addCall_eq]
  split
  · rename_i hends
    obtain ⟨rfl, rfl⟩ := hends
    rw [he]
    exact ⟨_, rfl, CallEdge.addCall_addCall_of_eq hsame stmt' kind'⟩
  · exact ⟨e, he, hsame⟩

/-- Recording the call again is no news, and changes nothing. -/
theorem HasCallOnce.addCall_eq (h : g.HasCallOnce src dst stmt kind) :
    g.addCall src dst stmt kind = (false, g) := by
  obtain ⟨e, he, hsame⟩ := h
  unfold edge? at he
  rw [Array.find?_eq_bind_findIdx?_getElem?] at he
  obtain ⟨k, hk, hget⟩ := Option.bind_eq_some_iff.1 he
  have hedges : g.edges.modify k (fun e => e.addCall stmt kind) = g.edges := by
    refine Array.ext_getElem? fun j => ?_
    rw [Array.getElem?_modify]
    split
    · rename_i hj
      rw [← hj, hget, Option.map_some, hsame]
    · rfl
  unfold CallGraph.addCall
  rw [hk]
  dsimp only
  rw [hedges]

end CallGraph

end PointsTo
