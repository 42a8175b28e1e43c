import PointsTo.Program.Hierarchy
import PointsTo.Proofs.Chains
import PointsTo.Proofs.Program.Declarations
import PointsTo.Proofs.Reach

/-!
# Walking up and down the hierarchy

Superclasses are found by following what each declaration names, subclasses by following all
declarations backwards. Both tell the same relation (`Program.Inherits`), whether or not there are
cycles or superclasses that nobody declares: the way up ends by itself before its bound does, for
only a declared class has a superclass, and a class whose subclasses are listed is met by each of
them on the way up (`Assembled.hierarchy`). What a class inherits under a name is what the nearest
class above it declares.
-/

namespace PointsTo

open Relation (ReflTransGen)

namespace Program

variable {p : Program} {c d s : ClassSig} {name : String}

/-! ## The relation -/

/-- The class is `d`, or it inherits from `d` directly or over others. -/
def Inherits (p : Program) (c d : ClassSig) : Prop :=
  ReflTransGen (fun c d => p.superclass? c = some d) c d

theorem inherits_of_isSubclassOf (h : p.isSubclassOf c d = true) : p.Inherits c d :=
  Reach.reflTransGen_of_mem_chain (List.contains_iff_mem.1 h)

theorem mem_inheritance (h : p.superclass? c = some d) : (d, c) ∈ p.inheritance := by
  obtain ⟨decl, hdecl, hd⟩ := Option.bind_eq_some_iff.1 h
  refine List.mem_filterMap.2 ⟨decl, by simpa using Array.mem_of_find?_eq_some hdecl, ?_⟩
  rw [hd, sig_of_class? hdecl]
  rfl

/-- Walking down from a class finds all that inherit from it, walking up from each. -/
theorem Inherits.mem_classAndSubclasses (h : p.Inherits c d) : c ∈ p.classAndSubclasses d := by
  refine Reach.mem_walk_iff.2 ?_
  induction h using ReflTransGen.head_induction_on with
  | refl => exact .refl
  | head hstep _ ih => exact .tail ih (mem_inheritance hstep)

/-! ## Up -/

/-- Only a declared class has a superclass. -/
theorem mem_sigs_of_superclass? (h : p.superclass? c = some d) :
    c ∈ p.classes.toList.map ClassDecl.sig := by
  obtain ⟨decl, hdecl, -⟩ := Option.bind_eq_some_iff.1 h
  exact List.mem_map.2
    ⟨decl, Array.mem_toList_iff.2 (Array.mem_of_find?_eq_some hdecl), sig_of_class? hdecl⟩

theorem unseen_sigs_le (p : Program) (seen : List ClassSig) :
    Reach.unseen (p.classes.toList.map ClassDecl.sig) seen ≤ p.classes.size := by
  simpa using Reach.unseen_le (p.classes.toList.map ClassDecl.sig) seen

/-- The way up ends by itself. -/
theorem chain_eq_superChain {n : Nat} (hn : p.classes.size ≤ n) :
    Reach.chain p.superclass? n [] c = p.superChain c := by
  induction n, hn using Nat.le_induction with
  | base => rfl
  | succ n hn ih =>
    rw [Reach.chain_succ (fun _ _ => mem_sigs_of_superclass?)
      (Nat.le_trans (p.unseen_sigs_le _) hn), ih]

theorem mem_superChain_self : c ∈ p.superChain c := by
  unfold superChain
  cases p.classes.size <;> simp [Reach.chain]

theorem mem_superChain_iff : d ∈ p.superChain c ↔ p.Inherits c d := by
  refine ⟨Reach.reflTransGen_of_mem_chain, fun h => ?_⟩
  induction h with
  | refl => exact mem_superChain_self
  | tail _ hstep ih =>
    exact (Reach.chain_closed (fun _ _ => mem_sigs_of_superclass?) (p.unseen_sigs_le _) ih
      hstep).resolve_right (by simp)

theorem isSubclassOf_iff : p.isSubclassOf c d = true ↔ p.Inherits c d :=
  List.contains_iff_mem.trans mem_superChain_iff

/-! ## Down -/

theorem Listed.superclass?_of_mem_inheritance (h : p.Listed) (hmem : (d, c) ∈ p.inheritance) :
    p.superclass? c = some d := by
  obtain ⟨decl, hdecl, heq⟩ := List.mem_filterMap.1 hmem
  obtain ⟨s, hs, hpair⟩ := Option.map_eq_some_iff.1 heq
  cases hpair
  unfold superclass?
  rw [h.class?_iff.2 ⟨Array.mem_toList_iff.1 hdecl, rfl⟩]
  exact hs

theorem Listed.mem_classAndSubclasses_iff (h : p.Listed) :
    c ∈ p.classAndSubclasses d ↔ p.Inherits c d := by
  refine ⟨fun hc => ?_, Inherits.mem_classAndSubclasses⟩
  have hleads : Reach.Leads p.inheritance d c := Reach.mem_walk_iff.1 hc
  induction hleads with
  | refl => exact .refl
  | tail _ hstep ih =>
    exact .head (h.superclass?_of_mem_inheritance hstep) (ih (Reach.mem_walk_iff.2 ‹_›))

theorem head?_classAndSubclasses (p : Program) (c : ClassSig) :
    (p.classAndSubclasses c).head? = some c := by
  unfold classAndSubclasses
  rw [Reach.walk, dif_neg List.not_mem_nil, List.nil_append]
  obtain ⟨more, hmore⟩ := Reach.exists_walk_eq p.inheritance
    ((Reach.successors p.inheritance c).reverse ++ []) [c]
  rw [hmore]
  rfl

/-! ## Inherited methods -/

/-- The class `n` steps up. -/
def ancestor? (p : Program) (c : ClassSig) : Nat → Option ClassSig
  | 0 => some c
  | n + 1 => (p.superclass? c).bind fun d => p.ancestor? d n

/-- The first method of that name that the declaration of a class lists. -/
def ownMethod? (p : Program) (c : ClassSig) (name : String) : Option MethodSig :=
  (p.class? c).bind fun decl => decl.methodNamed? name

theorem inherits_iff_ancestor? : p.Inherits c d ↔ ∃ n, p.ancestor? c n = some d := by
  constructor
  · intro h
    induction h using ReflTransGen.head_induction_on with
    | refl => exact ⟨0, rfl⟩
    | head hstep _ ih =>
      obtain ⟨n, hn⟩ := ih
      exact ⟨n + 1, by rw [ancestor?, hstep]; exact hn⟩
  · rintro ⟨n, hn⟩
    induction n generalizing c with
    | zero =>
      cases hn
      exact .refl
    | succ n ih =>
      obtain ⟨e, he, hd⟩ := Option.bind_eq_some_iff.1 hn
      exact .head he (ih hd)

/-- The chain of superclasses is listed step by step. -/
theorem ancestor?_of_chain {bound : Nat} {seen : List ClassSig} {i : Nat}
    (h : (Reach.chain p.superclass? bound seen c)[i]? = some d) : p.ancestor? c i = some d := by
  induction bound generalizing seen c i with
  | zero =>
    unfold Reach.chain at h
    split at h
    · cases h
    · cases i with
      | zero => exact h
      | succ i => cases h
  | succ bound ih =>
    unfold Reach.chain at h
    split at h
    · cases h
    · cases i with
      | zero => exact h
      | succ i =>
        rw [List.getElem?_cons_succ] at h
        split at h
        · rename_i e he
          rw [ancestor?, he]
          exact ih h
        · cases h

theorem ancestor?_of_superChain {i : Nat} (h : (p.superChain c)[i]? = some d) :
    p.ancestor? c i = some d :=
  ancestor?_of_chain h

/-- The method stands `n` steps up, in the nearest class that has one. -/
structure FoundAt (p : Program) (c : ClassSig) (name : String) (m : MethodSig) (n : Nat) :
    Prop where
  declared : ∃ d, p.ancestor? c n = some d ∧ p.ownMethod? d name = some m
  nearest : ∀ k < n, ∀ d, p.ancestor? c k = some d → p.ownMethod? d name = none

theorem FoundAt.unique {m m' : MethodSig} {n n' : Nat} (h : p.FoundAt c name m n)
    (h' : p.FoundAt c name m' n') : m = m' := by
  obtain ⟨d, hd, hm⟩ := h.declared
  obtain ⟨d', hd', hm'⟩ := h'.declared
  rcases Nat.lt_trichotomy n n' with hlt | rfl | hlt
  · rw [h'.nearest n hlt d hd] at hm
    cases hm
  · rw [hd] at hd'
    cases hd'
    exact Option.some.inj (hm.symm.trans hm')
  · rw [h.nearest n' hlt d' hd'] at hm'
    cases hm'

theorem findMethod?_eq_none_iff :
    p.findMethod? c name = none ↔ ∀ d, p.Inherits c d → p.ownMethod? d name = none := by
  unfold findMethod?
  rw [List.findSome?_eq_none_iff]
  exact forall_congr' fun d => by rw [mem_superChain_iff]; rfl

theorem exists_foundAt {m : MethodSig} (h : p.findMethod? c name = some m) :
    ∃ n, p.FoundAt c name m n := by
  obtain ⟨before, d, more, heq, hd, hbefore⟩ := List.findSome?_eq_some_iff.1 h
  refine ⟨before.length, ⟨d, ancestor?_of_superChain ?_, hd⟩, fun k hk e he => ?_⟩
  · rw [heq]
    simp
  · have hget : (p.superChain c)[k]? = some before[k] := by
      rw [heq, List.getElem?_append_left hk, List.getElem?_eq_getElem hk]
    rw [ancestor?_of_superChain hget] at he
    cases he
    exact hbefore _ (List.getElem_mem hk)

theorem findMethod?_iff {m : MethodSig} :
    p.findMethod? c name = some m ↔ ∃ n, p.FoundAt c name m n := by
  refine ⟨exists_foundAt, fun ⟨n, hfound⟩ => ?_⟩
  cases h : p.findMethod? c name with
  | none =>
    obtain ⟨d, hd, hm⟩ := hfound.declared
    rw [findMethod?_eq_none_iff.1 h d (inherits_iff_ancestor?.2 ⟨n, hd⟩)] at hm
    cases hm
  | some m' =>
    obtain ⟨n', hfound'⟩ := exists_foundAt h
    rw [hfound'.unique hfound]

/-- A method that a class declares is the class's own. -/
theorem Listed.owner_of_ownMethod? (h : p.Listed) {m : MethodSig}
    (hm : p.ownMethod? d name = some m) : m.owner = d ∧ m.name = name := by
  obtain ⟨decl, hdecl, hnamed⟩ := Option.bind_eq_some_iff.1 hm
  obtain ⟨hmem, rfl⟩ := h.class?_iff.1 hdecl
  exact ⟨h.owned decl hmem m (List.mem_of_find?_eq_some hnamed),
    by simpa using List.find?_some hnamed⟩

/-! ## All walks -/

/-- All walks over the hierarchy end, and they agree. -/
structure WalksAgree (p : Program) : Prop where
  /-- The way up is not cut short: no larger bound makes it longer. -/
  ends : ∀ c n, p.classes.size ≤ n → Reach.chain p.superclass? n [] c = p.superChain c
  /-- Every class on the way up is there once. -/
  once : ∀ c, (p.superChain c).Nodup
  down : ∀ s, (p.classAndSubclasses s).head? = some s ∧ (p.classAndSubclasses s).Nodup
  agree : ∀ c s, c ∈ p.classAndSubclasses s ↔ p.isSubclassOf c s = true
  steps : ∀ c s, p.isSubclassOf c s = true ↔ ∃ n, p.ancestor? c n = some s
  found : ∀ c name m, p.findMethod? c name = some m ↔ ∃ n, p.FoundAt c name m n
  missing : ∀ c name, p.findMethod? c name = none ↔
    ∀ n d, p.ancestor? c n = some d → p.ownMethod? d name = none
  /-- What is found belongs to a class that `c` is or inherits from, and none of those before it
  has a method of that name. -/
  owner : ∀ c name m, p.findMethod? c name = some m →
    m.name = name ∧ p.isSubclassOf c m.owner = true ∧ ∃ n, p.ancestor? c n = some m.owner ∧
      ∀ k < n, ∀ d, p.ancestor? c k = some d → p.ownMethod? d name = none

theorem Listed.owner_of_findMethod? (h : p.Listed) {m : MethodSig}
    (hm : p.findMethod? c name = some m) :
    m.name = name ∧ p.isSubclassOf c m.owner = true ∧ ∃ n, p.ancestor? c n = some m.owner ∧
      ∀ k < n, ∀ d, p.ancestor? c k = some d → p.ownMethod? d name = none := by
  obtain ⟨n, hfound⟩ := exists_foundAt hm
  obtain ⟨d, hd, hown⟩ := hfound.declared
  obtain ⟨rfl, hname⟩ := h.owner_of_ownMethod? hown
  exact ⟨hname, isSubclassOf_iff.2 (inherits_iff_ancestor?.2 ⟨n, hd⟩), n, hd, hfound.nearest⟩

/-- In a program that is put together, whatever its classes name as superclasses, the walks over
the hierarchy end and agree. -/
theorem Assembled.hierarchy_walks_agree (hp : p.Assembled) : p.WalksAgree where
  ends _ _ hn := chain_eq_superChain hn
  once _ := (Reach.nodup_chain _ _ _).1
  down s := ⟨p.head?_classAndSubclasses s, Reach.nodup_walk List.nodup_nil⟩
  agree _ _ := hp.listed.mem_classAndSubclasses_iff.trans isSubclassOf_iff.symm
  steps _ _ := isSubclassOf_iff.trans inherits_iff_ancestor?
  found _ _ _ := findMethod?_iff
  missing c name := by
    simp only [findMethod?_eq_none_iff, inherits_iff_ancestor?, forall_exists_index]
    exact forall_comm
  owner _ _ _ := hp.listed.owner_of_findMethod?

namespace Shapes

def file : FileSig := ⟨"sample", "shapes.ts"⟩

def cls (name : String) : ClassSig := ⟨file, name⟩

/-- `A` and `B` name each other as superclass and `B` has a method; `C` inherits from `A`, and `D`
from a class that nobody declares. -/
def knotted : Program :=
  let p := (addFile {} file false).2
  let p := (p.addClass file "A" (some (cls "B"))).2
  let p := (p.addClass file "B" (some (cls "A"))).2
  let p := (p.addClass file "C" (some (cls "A"))).2
  let p := (p.addClass file "D" (some (cls "Gone"))).2
  (p.addMethod (cls "B") "area").2

end Shapes

open Shapes

/-- On the cycle each class is a subclass of the other, and what hangs below it inherits from
both. -/
theorem hierarchy_walks_agree_knotted :
    knotted.WalksAgree ∧ cls "A" ∈ knotted.classAndSubclasses (cls "B") ∧
      cls "B" ∈ knotted.classAndSubclasses (cls "A") ∧
      cls "D" ∈ knotted.classAndSubclasses (cls "Gone") ∧
      knotted.findMethod? (cls "C") "area" = some ⟨cls "B", "area"⟩ ∧
      knotted.findMethod? (cls "D") "area" = none := by
  have hassembled : knotted.Assembled :=
    .tail (.tail (.tail (.tail (.tail (.single (.file file false)) (.cls file "A" _))
      (.cls file "B" _)) (.cls file "C" _)) (.cls file "D" _)) (.method _ "area")
  have hagree := Assembled.hierarchy_walks_agree hassembled
  exact ⟨hagree, (hagree.agree _ _).2 (by decide +kernel), (hagree.agree _ _).2 (by decide +kernel),
    (hagree.agree _ _).2 (by decide +kernel), by decide +kernel, by decide +kernel⟩

end Program

end PointsTo
