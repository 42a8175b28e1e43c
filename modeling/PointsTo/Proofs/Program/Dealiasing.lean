import PointsTo.Program.Assembly
import PointsTo.Proofs.Chains

/-!
# Plain copies

A local is a plain copy of another if the one statement that writes it, in whatever body, assigns
the other to it. De-aliasing follows plain copies back. It ends by itself, at the first local that
is no plain copy or, where copies run in a circle, at the first one on the circle. Once is enough,
for from there it goes no further.
-/

namespace PointsTo.Program

variable {p : Program} {v w x y : ValueId} {s : StmtId}

/-! ## Locals and their definitions -/

theorem isLocal_iff :
    p.isLocal v = true ↔ ∃ name ty m, p.value? v = some (.localVar name ty m) := by
  unfold isLocal
  cases p.value? v with
  | none => simp
  | some x => cases x <;> simp [Value.isLocal]

theorem lt_of_isLocal (h : p.isLocal v = true) : v < p.values.size := by
  obtain ⟨_, _, _, hv⟩ := isLocal_iff.1 h
  exact (Array.getElem?_eq_some_iff.1 hv).1

theorem defValue?_of_assign (h : (p.stmt? s).map Stmt.kind = some (.assign x y)) :
    (p.stmt? s).bind Stmt.defValue? = some x := by
  obtain ⟨stmt, hstmt, hkind⟩ := Option.map_eq_some_iff.1 h
  rw [hstmt, Option.bind_some, Stmt.defValue?, hkind]

theorem mem_definingStmts : s ∈ p.definingStmts v ↔
    p.isLocal v = true ∧ (p.stmt? s).bind Stmt.defValue? = some v := by
  unfold definingStmts
  split
  · rename_i hlocal
    simp only [List.mem_filter, List.mem_range, beq_iff_eq, hlocal, true_and, and_iff_right_iff_imp]
    intro hs
    obtain ⟨stmt, hstmt, -⟩ := Option.bind_eq_some_iff.1 hs
    exact (Array.getElem?_eq_some_iff.1 hstmt).1
  · rename_i hlocal
    simp [hlocal]

theorem nodup_definingStmts (p : Program) (v : ValueId) : (p.definingStmts v).Nodup := by
  unfold definingStmts
  split
  · exact List.nodup_range.filter _
  · exact .nil

/-- A local has one definition if there is one statement that writes it. -/
theorem definingStmts_eq_singleton_iff : p.definingStmts v = [s] ↔ p.isLocal v = true ∧
    (p.stmt? s).bind Stmt.defValue? = some v ∧
      ∀ s', (p.stmt? s').bind Stmt.defValue? = some v → s' = s := by
  rw [← List.perm_singleton, List.perm_ext_iff_of_nodup (p.nodup_definingStmts v)
    (List.nodup_singleton s)]
  simp only [mem_definingStmts, List.mem_singleton]
  constructor
  · intro h
    obtain ⟨hlocal, hs⟩ := (h s).2 rfl
    exact ⟨hlocal, hs, fun s' hs' => (h s').1 ⟨hlocal, hs'⟩⟩
  · rintro ⟨hlocal, hs, honly⟩ s'
    refine ⟨fun h => honly s' h.2, ?_⟩
    rintro rfl
    exact ⟨hlocal, hs⟩

/-! ## Copies -/

/-- The local `x` is written by one statement of the program, and that is `x = y` for a local
`y`. -/
structure PlainCopy (p : Program) (x y : ValueId) : Prop where
  target : p.isLocal x = true
  source : p.isLocal y = true
  assigned : ∃ s, (p.stmt? s).map Stmt.kind = some (.assign x y) ∧
    ∀ s', (p.stmt? s').bind Stmt.defValue? = some x → s' = s

theorem copiedFrom?_eq_some_iff : p.copiedFrom? x = some y ↔ p.PlainCopy x y := by
  constructor
  · intro h
    unfold copiedFrom? at h
    split at h
    · rename_i s hs
      obtain ⟨htarget, hdef, honly⟩ := definingStmts_eq_singleton_iff.1 hs
      split at h
      · rename_i left right hkind
        split at h
        · rename_i hsource
          cases h
          obtain rfl : left = x := Option.some.inj ((defValue?_of_assign hkind).symm.trans hdef)
          exact ⟨htarget, hsource, s, hkind, honly⟩
        · cases h
      · cases h
    · cases h
  · rintro ⟨htarget, hsource, s, hkind, honly⟩
    have hdefs : p.definingStmts x = [s] :=
      definingStmts_eq_singleton_iff.2 ⟨htarget, defValue?_of_assign hkind, honly⟩
    simp only [copiedFrom?, hdefs, hkind, hsource, if_true]

/-- A local is a plain copy of one other. -/
theorem rightUnique_plainCopy (p : Program) : Relator.RightUnique p.PlainCopy :=
  fun _ _ _ h h' => Reach.rightUnique_next (copiedFrom?_eq_some_iff.2 h)
    (copiedFrom?_eq_some_iff.2 h')

/-! ## Following copies -/

/-- The search would end without its bound as it does with it, for only a value of the program is a
plain copy. -/
theorem settles_dealias (p : Program) (v : ValueId) :
    Reach.Settles p.copiedFrom? [] v (p.dealias v) := by
  have hnext : ∀ x y, p.copiedFrom? x = some y → x ∈ List.range p.values.size := fun x y h =>
    List.mem_range.2 (lt_of_isLocal (copiedFrom?_eq_some_iff.1 h).target)
  have hbound : Reach.unseen (List.range p.values.size) [] ≤ p.values.size := by
    simpa using Reach.unseen_le (List.range p.values.size) []
  exact Reach.settles_settle hnext hbound

theorem settles_iff : Reach.Settles p.copiedFrom? [] v w ↔ w = p.dealias v := by
  refine ⟨fun h => h.unique (p.settles_dealias v), ?_⟩
  rintro rfl
  exact p.settles_dealias v

theorem exists_endsAt_dealias (p : Program) (v : ValueId) :
    ∃ before, Reach.EndsAt p.PlainCopy v before (p.dealias v) := by
  have hrel : (fun x y => p.copiedFrom? x = some y) = p.PlainCopy := by
    funext x y
    exact propext copiedFrom?_eq_some_iff
  exact hrel ▸ (p.settles_dealias v).exists_endsAt

theorem dealias_dealias (p : Program) (v : ValueId) : p.dealias (p.dealias v) = p.dealias v := by
  obtain ⟨before, h⟩ := p.exists_endsAt_dealias v
  obtain ⟨before', h'⟩ := p.exists_endsAt_dealias (p.dealias v)
  exact h'.unique p.rightUnique_plainCopy h.self

/-- De-aliasing answers what it was asked about, or a local. -/
theorem dealias_eq_or_isLocal (p : Program) (v : ValueId) :
    p.dealias v = v ∨ p.isLocal (p.dealias v) = true := by
  obtain ⟨before, h⟩ := p.exists_endsAt_dealias v
  exact h.eq_or_exists.imp_right fun ⟨_, hcopy⟩ => hcopy.source

/-- Whatever the program, following plain copies from a value ends by itself, and `dealias` answers
where: plain copies lead from the value to the answer, which is no plain copy or lies on a circle
of plain copies, and nothing before it lies on one. From the answer it goes no further. -/
theorem dealias_traces_copies (p : Program) (v : ValueId) :
    (∀ w, Reach.Settles p.copiedFrom? [] v w ↔ w = p.dealias v) ∧
      (∃ before, Reach.EndsAt p.PlainCopy v before (p.dealias v)) ∧
      p.dealias (p.dealias v) = p.dealias v :=
  ⟨fun _ => settles_iff, p.exists_endsAt_dealias v, p.dealias_dealias v⟩

/-- `x = new Object; y = x; z = y`, a circle `a = b; b = a` that `c = b` hangs on, and `w`, written
by two statements. The locals are numbered in this order. -/
def tangled : Program :=
  let file : FileSig := ⟨"sample", "copies.ts"⟩
  let main := file.defaultMethod
  let (_, p) := addFile {} file false
  let (x, d) := (p.openBody main).localVar "x" .any
  let (y, d) := d.localVar "y" .any
  let (z, d) := d.localVar "z" .any
  let (a, d) := d.localVar "a" .any
  let (b, d) := d.localVar "b" .any
  let (c, d) := d.localVar "c" .any
  let (w, d) := d.localVar "w" .any
  let (_, d) := d.assignNew x (.newObject (.builtin "Object"))
  let copies := [(y, x), (z, y), (a, b), (b, a), (c, b), (w, x), (w, y)]
  (copies.foldl (fun d copy => (d.assign copy.1 copy.2).2) d).close

/-- What leads back to `x` stands for `x`, what leads into the circle for where it enters it, and
`w` for itself. -/
example : (List.range 7).map tangled.dealias = [0, 0, 0, 3, 4, 4, 6] := by decide +kernel

end PointsTo.Program
