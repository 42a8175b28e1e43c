import PointsTo.Proofs.Builder.Nodes

/-!
# What function objects hold

A function that the program names has nothing fixed. A function that `bind` makes of another one has
the arguments fixed that the other one has, and then those of the call. Arguments that are no locals
have no node. They leave a gap in the positions, so the positions are those among all arguments that
were passed. The receiver is the first one that is a local.
-/

namespace PointsTo

open Build

theorem NodeKind.eq_function_of_function? {kind : NodeKind} {fn : FunctionObject}
    (h : kind.function? = some fn) : kind = .function fn := by
  cases kind with
  | function fn' => cases h; rfl
  | _ => cases h

namespace Pag

variable {g g' : Pag} {obj : NodeId} {fn : FunctionObject}

theorem function?_congr (hg : g.Extends g') (ho : obj < g.nodes.size) :
    g'.function? obj = g.function? obj := by
  have hread : ∀ g : Pag, g.function? obj =
      ((g.node? obj).map Node.kind).bind NodeKind.function? := by
    intro g
    unfold Pag.function?
    rw [Option.bind_map]
    rfl
  rw [hread, hread, hg.kind_eq ho]

theorem lt_of_function? (h : (g.function? obj).isSome = true) :
    obj < g.nodes.size := by
  obtain ⟨fn, hfn⟩ := Option.isSome_iff_exists.1 h
  obtain ⟨node, hnode, -⟩ := Option.bind_eq_some_iff.1 hfn
  exact Pag.node?_lt hnode

theorem exists_node_of_function? (h : g.function? obj = some fn) :
    ∃ x, g.node? obj = some x ∧ x.kind = .function fn := by
  obtain ⟨x, hx, hk⟩ := Option.bind_eq_some_iff.1 h
  exact ⟨x, hx, NodeKind.eq_function_of_function? hk⟩

theorem Extends.function? (hg : g.Extends g') (h : g.function? obj = some fn) :
    g'.function? obj = some fn := by
  rw [function?_congr hg (lt_of_function? (Option.isSome_of_eq_some h)), h]

end Pag

/-- A value that is passed, with the context that it is passed in. -/
abbrev PassedValue := ContextId × ValueId

/-- The arguments of a call, with the context that it is made in. -/
abbrev PassedList := ContextId × List ValueId

namespace Program

variable {p : Program} {g g' : Pag}

/-- The node is that of the value, in the context that it is passed in. -/
def NodeOf (p : Program) (g : Pag) (x : PassedValue) (n : NodeId) : Prop :=
  nodeIn? g x.1 (entityOf p x.2) = some n

theorem NodeOf.mono {x : PassedValue} {n : NodeId} (h : p.NodeOf g x n) (hg : g.Extends g') :
    p.NodeOf g' x n :=
  nodeIn?_mono (entityOf_isPlain p x.2) hg h

/-- A node that was there before was that of the value before. -/
theorem NodeOf.of_extends {x : PassedValue} {n : NodeId} (h : p.NodeOf g' x n) (hg : g.Extends g')
    (hn : n < g.nodes.size) : p.NodeOf g x n := by
  unfold NodeOf nodeIn? at h ⊢
  rw [contextOf_eq (entityOf_isPlain p x.2) g g' x.1]
  cases hfind : g.find? (contextOf g' x.1 (entityOf p x.2)) (entityOf p x.2) with
  | some m => rw [← h, hg.find? hfind]
  | none =>
    obtain ⟨⟨y, hy, hcid, he⟩, -⟩ := Pag.find?_eq_some_iff.1 h
    obtain ⟨z, hz, hgrows⟩ := hg.back hn hy
    exact absurd ⟨hgrows.cid ▸ hcid, hgrows.entity ▸ he⟩ (Pag.find?_eq_none_iff.1 hfind n z hz)

theorem rel_nodeOf_mono {x : Option PassedValue} {n : Option NodeId}
    (h : Option.Rel (p.NodeOf g) x n) (hg : g.Extends g') : Option.Rel (p.NodeOf g') x n := by
  cases h with
  | some hn => exact .some (hn.mono hg)
  | none => exact .none

/-- The arguments are exactly the nodes of those values that are locals, with their positions from
`index` on. -/
def Passes (p : Program) (g : Pag) (xs : List PassedValue) (index : Nat)
    (args : List (NodeId × Nat)) : Prop :=
  List.Forall₂ (fun x arg => p.NodeOf g x.1 arg.1 ∧ x.2 = arg.2)
    ((xs.zipIdx index).filter fun x => p.isLocal x.1.2) args

namespace Passes

variable {xs ys : List PassedValue} {index : Nat} {as bs : List (NodeId × Nat)}

theorem nil : p.Passes g [] index [] :=
  List.Forall₂.nil

theorem mono (h : p.Passes g xs index as) (hg : g.Extends g') : p.Passes g' xs index as :=
  h.imp fun _ _ hx => ⟨hx.1.mono hg, hx.2⟩

theorem of_extends (h : p.Passes g' xs index as) (hg : g.Extends g')
    (has : ∀ arg ∈ as, arg.1 < g.nodes.size) : p.Passes g xs index as := by
  unfold Passes at h ⊢
  generalize (xs.zipIdx index).filter (fun x => p.isLocal x.1.2) = locals at h ⊢
  induction h with
  | nil => exact .nil
  | cons hx _ ih =>
    refine .cons ⟨hx.1.of_extends hg (has _ List.mem_cons_self), hx.2⟩ (ih fun arg harg => ?_)
    exact has arg (List.mem_cons_of_mem _ harg)

/-- A local comes first. -/
theorem cons {x : PassedValue} {n : NodeId} (hlocal : p.isLocal x.2 = true) (hn : p.NodeOf g x n)
    (h : p.Passes g xs (index + 1) as) : p.Passes g (x :: xs) index ((n, index) :: as) := by
  unfold Passes
  rw [List.zipIdx_cons, List.filter_cons_of_pos (by exact hlocal)]
  exact .cons ⟨hn, rfl⟩ h

/-- What is no local leaves a gap. -/
theorem skip {x : PassedValue} (hlocal : p.isLocal x.2 = false) (h : p.Passes g xs (index + 1) as) :
    p.Passes g (x :: xs) index as := by
  unfold Passes
  rw [List.zipIdx_cons, List.filter_cons_of_neg (by simp [hlocal])]
  exact h

theorem append (h : p.Passes g xs index as) (h' : p.Passes g ys (index + xs.length) bs) :
    p.Passes g (xs ++ ys) index (as ++ bs) := by
  unfold Passes
  rw [List.zipIdx_append, List.filter_append]
  exact List.rel_append h h'

/-- The argument of each local is there. -/
theorem exists_mem (h : p.Passes g xs index as) {i : Nat} {x : PassedValue} (hx : xs[i]? = some x)
    (hlocal : p.isLocal x.2 = true) : ∃ n, p.NodeOf g x n ∧ (n, index + i) ∈ as := by
  have hmem : (x, index + i) ∈ (xs.zipIdx index).filter fun x => p.isLocal x.1.2 := by
    refine List.mem_filter.2 ⟨List.mem_zipIdx_iff_le_and_getElem?_sub.2 ⟨by simp, ?_⟩, hlocal⟩
    simpa using hx
  obtain ⟨j, hj, heq⟩ := List.getElem_of_mem hmem
  have hj' : j < as.length := h.length_eq ▸ hj
  obtain ⟨hn, hpos⟩ := List.Forall₂.get h hj hj'
  rw [List.get_eq_getElem, heq] at hn hpos
  refine ⟨as[j].1, hn, ?_⟩
  rw [show index + i = as[j].2 from hpos]
  exact List.getElem_mem hj'

/-- Arguments are nodes. -/
theorem lt_of_mem (h : p.Passes g xs index as) {arg : NodeId × Nat} (harg : arg ∈ as) :
    arg.1 < g.nodes.size := by
  obtain ⟨j, hj, rfl⟩ := List.getElem_of_mem harg
  have hj' : j < ((xs.zipIdx index).filter fun x => p.isLocal x.1.2).length := h.length_eq ▸ hj
  exact lt_of_nodeIn? (List.Forall₂.get h hj' hj).1

end Passes

/-- The first argument of a call, if it is a local. -/
def firstLocal? (p : Program) (call : PassedList) : Option PassedValue :=
  (call.2[0]?.filter p.isLocal).map fun a => (call.1, a)

/-- The receiver after a call of `bind`: the one before, or else the first argument. -/
def FixesThis (p : Program) (g : Pag) (call : PassedList) : Option NodeId → Option NodeId → Prop
  | some n, after => after = some n
  | none, after => Option.Rel (p.NodeOf g) (p.firstLocal? call) after

theorem FixesThis.mono {call : PassedList} {before after : Option NodeId}
    (h : p.FixesThis g call before after) (hg : g.Extends g') :
    p.FixesThis g' call before after := by
  cases before with
  | some n => exact h
  | none => exact rel_nodeOf_mono h hg

/-- How a function object comes about that stands for an entity in a context. -/
inductive MakesFunction (p : Program) (g : Pag) (cid : ContextId) :
    Entity → FunctionObject → Prop where
  | literal {v : ValueId} {m : MethodSig} (func : Option FuncId)
      (hv : p.value? v = some (.functionRef m)) :
      MakesFunction p g cid (.value v) { method := m, func }
  | bound {stmt : StmtId} {target : NodeId} {i : Invoke} {fn : FunctionObject}
      {boundThis : Option NodeId} {more : List (NodeId × Nat)} (func : Option FuncId)
      (invoke : p.invokeOf? stmt = some i) (of : g.function? target = some fn)
      (this : p.FixesThis g (cid, i.args) fn.boundThis boundThis)
      (args : p.Passes g ((i.args.drop 1).map (cid, ·)) fn.argOffset more) :
    MakesFunction p g cid (.boundFunction stmt target) {
      method := fn.method, func, bindStmt := some stmt, boundThis
      boundArgs := fn.boundArgs ++ more, argOffset := fn.argOffset + (i.args.drop 1).length }

end Program

theorem Program.MakesFunction.mono {p : Program} {g g' : Pag} {cid : ContextId} {e : Entity}
    {fn : FunctionObject} (h : p.MakesFunction g cid e fn) (hg : g.Extends g') :
    p.MakesFunction g' cid e fn := by
  cases h with
  | literal func hv => exact .literal func hv
  | bound func invoke of this args =>
    exact .bound func invoke (hg.function? of) (this.mono hg) (args.mono hg)

end PointsTo
