import Mathlib.Algebra.GroupWithZero.Nat
import Mathlib.Data.List.Nodup
import Mathlib.Data.List.Perm.Subperm
import PointsTo.Proofs.CallGraph.Resolution
import PointsTo.Proofs.Reach

/-!
# Why resolving calls ends

The queue of a resolver runs empty within its bound. A method is expanded once and uses up the
statements of its body then. A statement makes at most one method wait for every class that a
receiver can have, and a method waits in the queue or, with a parked call, for its class. So the
methods and parked calls that wait and the statements that are left, times the classes, get less
with every method that is taken from the queue (`work_expand_lt`).
-/

namespace PointsTo

/-! ## The classes of a receiver -/

namespace Program

theorem length_classAndSubclasses_le (p : Program) (c : ClassSig) :
    (p.classAndSubclasses c).length ≤ p.classes.size + 1 := by
  have hsub : p.classAndSubclasses c ⊆ c :: p.classes.toList.map ClassDecl.sig := by
    intro d hd
    have hleads : Reach.Leads p.inheritance c d := Reach.mem_walk_iff.1 hd
    induction hleads with
    | refl => exact List.mem_cons_self
    | tail _ he _ =>
      obtain ⟨decl, hdecl, heq⟩ := List.mem_filterMap.1 he
      obtain ⟨s, -, hs⟩ := Option.map_eq_some_iff.1 heq
      cases hs
      exact List.mem_cons_of_mem _ (List.mem_map_of_mem hdecl)
  have hnodup : (p.classAndSubclasses c).Nodup := Reach.nodup_walk List.nodup_nil
  simpa using (hnodup.subperm hsub).length_le

theorem length_targets_le {p : Program} {i : Invoke} {targets : List (ClassSig × MethodSig)}
    (h : p.dispatch i = .virtual targets) : targets.length ≤ p.classes.size + 1 := by
  unfold dispatch at h
  split at h
  · cases h
  · split at h <;> cases h
  · split at h
    · cases h
    · split at h
      · cases h
      · rename_i root _
        dsimp only at h
        split at h
        · cases h
        · cases h
          exact Nat.le_trans (List.length_filterMap_le _ _) (p.length_classAndSubclasses_le root)

end Program

/-- A quantity that no round of a loop raises by more than `k`. -/
theorem foldl_weight_le {α σ : Type} {w : σ → Nat} {f : σ → α → σ} {k : Nat}
    (h : ∀ s x, w (f s x) ≤ w s + k) (xs : List α) (s : σ) :
    w (xs.foldl f s) ≤ w s + xs.length * k := by
  induction xs generalizing s with
  | nil => simp
  | cons x xs ih =>
    have hrest := ih (f s x)
    have hfirst := h s x
    rw [List.foldl_cons, List.length_cons, Nat.add_one_mul]
    omega

namespace Resolver

variable {p : Program} {entries : List MethodSig} {o : Outcome} {base : CallGraph}
  {r r' : Resolver}

/-! ## Why the queue runs empty -/

/-- The methods that wait, and the calls that may make others wait. -/
def load (r : Resolver) : Nat :=
  r.queue.length + r.parked.length

theorem load_connect_le (r : Resolver) (caller callee : FuncId) (stmt : StmtId) (kind : CallKind) :
    (r.connect caller callee stmt kind).load ≤ r.load + 1 := by
  unfold connect push load
  split
  · dsimp only
    omega
  · rw [List.length_append, List.length_singleton]
    dsimp only
    omega

/-- A parked call that is taken leaves the parked ones. -/
theorem load_instantiate_le (r : Resolver) (c : ClassSig) : (r.instantiate c).load ≤ r.load := by
  unfold instantiate
  split
  · exact Nat.le_refl _
  rw [partition_due]
  dsimp only
  refine Nat.le_trans (foldl_weight_le (w := load) (fun r' call => r'.load_connect_le ..) _ _) ?_
  have hparts := List.length_eq_length_filter_add (l := r.parked) fun call => call.cls == c
  unfold load
  rw [hparts]
  dsimp only
  omega

theorem load_enter_le (r : Resolver) (f : FuncId) : (r.enter p f).load ≤ r.load := by
  unfold enter
  split
  · exact Nat.le_refl _
  · split
    · exact Nat.le_refl _
    · exact Nat.le_trans (foldl_weight_le (w := load) (k := 0) load_instantiate_le _ _) (by simp)

/-- The callee for a class is gathered, or the call is parked. -/
theorem load_target_le (f : FuncId) (stmt : StmtId) (acc : List FuncId × Resolver)
    (t : ClassSig × MethodSig) :
    (target p f stmt acc t).1.length + (target p f stmt acc t).2.load ≤
      acc.1.length + acc.2.load + 1 := by
  unfold target load
  dsimp only
  split
  · split
    · dsimp only
      omega
    · rw [List.length_append, List.length_singleton]
      dsimp only
      omega
  · rw [List.length_append, List.length_singleton]
    dsimp only
    omega

/-- Callees that were gathered wait to be queued. -/
theorem load_resolve_le (r : Resolver) (f : FuncId) (stmt : StmtId) :
    (r.resolve p f stmt).1.length + (r.resolve p f stmt).2.load ≤
      r.load + (p.classes.size + 1) := by
  unfold resolve
  split
  · simp
  · rename_i i hi
    split
    · simp only [List.length_singleton]
      unfold load
      dsimp only
      omega
    · rename_i targets htargets
      have hlen := Program.length_targets_le htargets
      have hloop := foldl_weight_le (w := fun acc : List FuncId × Resolver =>
        acc.1.length + acc.2.load) (load_target_le (p := p) f stmt) targets ([], r)
      simp only [List.length_nil, Nat.mul_one] at hloop
      omega

theorem load_followStmt_le (r : Resolver) (f : FuncId) (stmt : StmtId) :
    (r.followStmt p f stmt).load ≤ r.load + (p.classes.size + 1) := by
  have hresolve := load_resolve_le (p := p) r f stmt
  unfold followStmt
  split
  · exact Nat.le_add_right _ _
  · dsimp only
    generalize r.resolve p f stmt = found at hresolve ⊢
    refine Nat.le_trans
      (foldl_weight_le (w := load) (fun r' callee => r'.load_connect_le ..) _ _) ?_
    omega

/-- The statements that expanding a method follows. -/
def toFollow (p : Program) (r : Resolver) (f : FuncId) : List StmtId :=
  if r.processed.contains f then []
  else (((r.graph.methodOf? f).bind p.method?).map MethodDecl.stmts).getD []

theorem load_expand_lt {f : FuncId} {queue : List FuncId} (hq : r.queue = f :: queue) :
    (expand p { r with queue } f).2.load + 1 ≤
      r.load + (r.toFollow p f).length * (p.classes.size + 1) := by
  have htaken : queue.length + r.parked.length + 1 = r.load := by
    unfold load
    rw [hq, List.length_cons]
    omega
  unfold expand toFollow
  dsimp only
  split
  · unfold load at htaken ⊢
    simp only [List.length_nil]
    omega
  · cases hbody : ((r.graph.methodOf? f).bind p.method?).bind MethodDecl.body with
    | none =>
      dsimp only
      refine Nat.le_trans (Nat.le_of_eq ?_) (Nat.le_add_right _ _)
      exact htaken
    | some body =>
      obtain ⟨decl, hdecl, hsome⟩ := Option.bind_eq_some_iff.1 hbody
      have hstmts : decl.stmts = body.stmts := by simp [MethodDecl.stmts, hsome]
      dsimp only
      rw [hdecl, Option.map_some, Option.getD_some, hstmts]
      have henter := load_enter_le (p := p) { r with queue, processed := f :: r.processed } f
      have hloop := foldl_weight_le (w := load) (f := followStmt p f)
        (fun r' stmt => r'.load_followStmt_le f stmt) body.stmts
        (enter p { r with queue, processed := f :: r.processed } f)
      have hsame : load { r with queue, processed := f :: r.processed } + 1 = r.load := htaken
      omega

/-- Whether a method is yet to be expanded. -/
def isPending (r : Resolver) (decl : MethodDecl) : Bool :=
  r.processed.all fun f => r.graph.methodOf? f != some decl.sig

theorem isPending_iff {decl : MethodDecl} :
    r.isPending decl = true ↔ ∀ f ∈ r.processed, r.graph.methodOf? f ≠ some decl.sig := by
  simp [isPending]

/-- The statements of all methods that are yet to be expanded. -/
def pending (p : Program) (r : Resolver) : Nat :=
  ((p.methods.toList.filter r.isPending).map fun decl => decl.stmts.length).sum

/-- How much there is still to do. Every statement that is left can make one method wait for every
class. -/
def work (p : Program) (r : Resolver) : Nat :=
  r.load + r.pending p * (p.classes.size + 1)

/-- Of two selections, the narrower one weighs less, by what it leaves out. -/
theorem sum_filter_le {α : Type} (w : α → Nat) {narrow wide : α → Bool}
    (h : ∀ x, narrow x = true → wide x = true) (xs : List α) :
    ((xs.filter narrow).map w).sum ≤ ((xs.filter wide).map w).sum ∧
      ∀ x ∈ xs, wide x = true → narrow x = false →
        ((xs.filter narrow).map w).sum + w x ≤ ((xs.filter wide).map w).sum := by
  induction xs with
  | nil => simp
  | cons y ys ih =>
    obtain ⟨hle, hlt⟩ := ih
    have hy := h y
    constructor
    · grind
    · intro x hx
      grind

theorem pending_expands {f : FuncId} {expanded : Bool} (hconsistent : r.graph.Consistent p)
    (h : MethodExpanded p r f expanded r') :
    r'.pending p + (r.toFollow p f).length ≤ r.pending p := by
  have hnarrow : ∀ decl, r'.isPending decl = true → r.isPending decl = true := by
    intro decl hdecl
    rw [isPending_iff] at hdecl ⊢
    exact fun f' hf' hm => hdecl f' (h.processed.2 (Or.inr hf')) (h.extended.graph.method hm)
  obtain ⟨hle, hlt⟩ := sum_filter_le (fun decl : MethodDecl => decl.stmts.length) hnarrow
    p.methods.toList
  unfold toFollow
  split
  · exact hle
  · rename_i hf
    rw [List.contains_iff_mem] at hf
    cases hdecl : (r.graph.methodOf? f).bind p.method? with
    | none => exact hle
    | some decl =>
      obtain ⟨m, hm, hmethod⟩ := Option.bind_eq_some_iff.1 hdecl
      have hsig : decl.sig = m := by simpa using Array.find?_some hmethod
      refine hlt decl (by simpa using Array.mem_of_find?_eq_some hmethod) ?_ ?_
      · -- Another node of the method cannot have been expanded: there is none.
        refine isPending_iff.2 fun f' hf' hm' => hf ?_
        rw [hsig] at hm'
        exact hconsistent.distinct hm' hm ▸ hf'
      · refine Bool.eq_false_iff.2 fun hpending => ?_
        refine isPending_iff.1 hpending f (h.processed.2 (Or.inl rfl)) ?_
        rw [hsig]
        exact h.extended.graph.method hm

theorem work_expand_lt (ho : o.Closed p entries) (h : r.Invariant p o base)
    (hconsistent : r.graph.Consistent p) {f : FuncId} {queue : List FuncId}
    (hq : r.queue = f :: queue) : (expand p { r with queue } f).2.work p < r.work p := by
  have hload := load_expand_lt (p := p) hq
  have hpending := pending_expands hconsistent (expand_invariant ho h hq).1
  have hmul := Nat.mul_le_mul_right (p.classes.size + 1) hpending
  rw [Nat.add_mul] at hmul
  unfold work
  omega

/-- With enough steps the queue runs empty. -/
theorem queue_drain (ho : o.Closed p entries) {n : Nat} (h : r.Invariant p o base)
    (hconsistent : r.graph.Consistent p) (hwork : r.work p ≤ n) : (r.drain p n).2.queue = [] := by
  induction n generalizing r with
  | zero =>
    refine List.length_eq_zero_iff.1 (Nat.le_zero.1 ?_)
    unfold work load at hwork
    show r.queue.length ≤ 0
    omega
  | succ n ih =>
    unfold drain
    split
    · assumption
    · rename_i f queue hq
      have hlt := work_expand_lt ho h hconsistent hq
      exact ih (expand_invariant ho h hq).2
        ((keptByGrowth_consistent p).expand (r := { r with queue }) hconsistent f) (by omega)

theorem work_le_bound (p : Program) (r : Resolver) : r.work p ≤ r.bound p := by
  have hall : r.pending p ≤ p.methods.foldl (fun n m => n + m.stmts.length) 0 := by
    rw [← Array.foldl_toList, ← List.foldl_map (f := fun m : MethodDecl => m.stmts.length)
      (g := fun n k => n + k), ← List.sum_eq_foldl]
    have hle : ((p.methods.toList.filter r.isPending).map fun decl => decl.stmts.length).sum ≤
        ((p.methods.toList.filter fun _ => true).map fun decl => decl.stmts.length).sum :=
      (sum_filter_le _ (fun _ _ => rfl) _).1
    rwa [List.filter_true] at hle
  unfold work bound load
  exact Nat.add_le_add_left (Nat.mul_le_mul_right _ hall) _

end Resolver

end PointsTo
