import Mathlib.Data.Finset.Card
import Mathlib.Data.List.Chain
import PointsTo.Reach

/-!
# Following successors

Where each thing has at most one successor, there is one way to go from a thing. Both `chain` and
`settle` go it, and remember what they have seen, so they stop by themselves before their bound
does: each thing that they leave has a successor and is left once.

`settle` answers where the way ends. Without a bound the search is the relation `Settles`, and
`EndsAt` says what is found, without a search: the first thing on the way that has no successor or
lies on a cycle. There is one such thing at most, and going on from there leads nowhere else.
-/

namespace PointsTo

open Relation (ReflTransGen TransGen)

namespace Reach

variable {α : Type} {x y z : α}

/-! ## Cycles -/

section Relations

variable {r : α → α → Prop} {before before' : List α}

/-- Going along `r` comes back to `x`. -/
def OnCycle (r : α → α → Prop) (x : α) : Prop :=
  TransGen r x x

theorem OnCycle.exists_next (h : OnCycle r x) : ∃ y, r x y := by
  obtain ⟨y, hxy, -⟩ := TransGen.head'_iff.1 h
  exact ⟨y, hxy⟩

/-- If there is only one way to go, what is reached from a cycle leads back. -/
theorem OnCycle.back (hr : Relator.RightUnique r) (h : OnCycle r x) (hxy : ReflTransGen r x y) :
    ReflTransGen r y x := by
  induction hxy with
  | refl => exact .refl
  | @tail y z hxy hstep ih =>
    have hcycle : TransGen r y y := TransGen.trans_right ih (h.trans_left hxy)
    obtain ⟨z', hstep', hback⟩ := TransGen.head'_iff.1 hcycle
    rw [hr hstep hstep']
    exact hback.trans ih

theorem OnCycle.along (hr : Relator.RightUnique r) (h : OnCycle r x) (hxy : ReflTransGen r x y) :
    OnCycle r y :=
  TransGen.trans_right (h.back hr hxy) (h.trans_left hxy)

/-- What is passed on the way to `y` has a successor further on. -/
theorem exists_next_of_isChain (h : (before ++ [y]).IsChain r) (hx : x ∈ before) :
    ∃ z ∈ before.tail ++ [y], r x z := by
  induction before with
  | nil => cases hx
  | cons w before ih =>
    rw [List.cons_append, List.isChain_cons] at h
    rcases List.mem_cons.1 hx with rfl | hx
    · have hne : before ++ [y] ≠ [] := by simp
      exact ⟨_, List.head_mem hne, h.1 _ (List.head?_eq_some_head hne)⟩
    · obtain ⟨z, hz, hstep⟩ := ih h.2 hx
      refine ⟨z, ?_, hstep⟩
      rcases List.mem_append.1 hz with hz | hz
      · exact List.mem_append_left _ (List.mem_of_mem_tail hz)
      · exact List.mem_append_right _ hz

theorem reflTransGen_of_isChain (h : (before ++ [y]).IsChain r) (hx : x ∈ before ++ [y]) :
    ReflTransGen r x y := by
  rcases List.mem_append.1 hx with hx | hx
  · exact h.backwards_concat_induction (ReflTransGen r · y) before (fun _ _ => .head) .refl x hx
  · rw [List.mem_singleton.1 hx]

theorem onCycle_of_isChain (h : (x :: before ++ [x]).IsChain r) : OnCycle r x := by
  obtain ⟨y, hy, hstep⟩ := exists_next_of_isChain h List.mem_cons_self
  exact .head' hstep (reflTransGen_of_isChain h.tail hy)

/-- Going around leads to what was passed on the way around, and to nothing else. -/
theorem mem_of_reflTransGen_around (hr : Relator.RightUnique r)
    (h : (x :: before ++ [x]).IsChain r) (hxy : ReflTransGen r x y) : y ∈ x :: before := by
  induction hxy with
  | refl => exact List.mem_cons_self
  | tail _ hstep ih =>
    obtain ⟨z, hz, hstep'⟩ := exists_next_of_isChain h ih
    rw [hr hstep hstep']
    rcases List.mem_append.1 hz with hz | hz
    · exact List.mem_cons_of_mem _ hz
    · exact List.mem_singleton.1 hz ▸ List.mem_cons_self

/-! ## Where a way ends -/

/-- The way along `r` from `x` goes over `before` and ends at `y`: nothing comes after `y`, or `y`
lies on a cycle, and nothing before it does. -/
structure EndsAt (r : α → α → Prop) (x : α) (before : List α) (y : α) : Prop where
  start : (before ++ [y]).head? = some x
  linked : (before ++ [y]).IsChain r
  acyclic : ∀ z ∈ before, ¬OnCycle r z
  final : (∀ z, ¬r y z) ∨ OnCycle r y

namespace EndsAt

theorem eq_start (h : EndsAt r x [] y) : y = x :=
  Option.some.inj h.start

/-- The first step of a way that is not over at once. -/
theorem uncons {w : α} (h : EndsAt r x (w :: before) z) :
    w = x ∧ ¬OnCycle r x ∧ ∃ y, r x y ∧ EndsAt r y before z := by
  obtain rfl : w = x := Option.some.inj h.start
  have hlinked := h.linked
  rw [List.cons_append, List.isChain_cons] at hlinked
  have hne : before ++ [z] ≠ [] := by simp
  refine ⟨rfl, h.acyclic w List.mem_cons_self, _, hlinked.1 _ (List.head?_eq_some_head hne), ?_⟩
  exact ⟨List.head?_eq_some_head hne, hlinked.2, fun v hv =>
    h.acyclic v (List.mem_cons_of_mem _ hv), h.final⟩

/-- From where a way ends it does not go on. -/
theorem self (h : EndsAt r x before y) : EndsAt r y [] y :=
  ⟨rfl, .singleton y, nofun, h.final⟩

/-- A way that is over at once does not go on. -/
theorem not_uncons {w : α} (h : EndsAt r x [] y) (h' : EndsAt r x (w :: before) z) : False := by
  obtain ⟨-, hcycle, v, hstep, -⟩ := h'.uncons
  rcases h.eq_start ▸ h.final with hend | hon
  · exact hend v hstep
  · exact hcycle hon

/-- If there is only one way to go, it ends at one thing. -/
theorem unique (hr : Relator.RightUnique r) (h : EndsAt r x before y) (h' : EndsAt r x before' z) :
    y = z := by
  induction before generalizing x before' with
  | nil =>
    cases before' with
    | nil => rw [h.eq_start, h'.eq_start]
    | cons _ _ => exact (h.not_uncons h').elim
  | cons _ before ih =>
    cases before' with
    | nil => exact (h'.not_uncons h).elim
    | cons _ before' =>
      obtain ⟨-, -, w, hstep, hrest⟩ := h.uncons
      obtain ⟨-, -, w', hstep', hrest'⟩ := h'.uncons
      rw [hr hstep' hstep] at hrest'
      exact ih hrest hrest'

/-- A way ends where it starts or at the end of a step. -/
theorem eq_or_exists (h : EndsAt r x before y) : y = x ∨ ∃ z, r z y := by
  induction before generalizing x with
  | nil => exact Or.inl h.eq_start
  | cons _ before ih =>
    obtain ⟨-, -, w, hstep, hrest⟩ := h.uncons
    rcases ih hrest with rfl | hlast
    · exact Or.inr ⟨x, hstep⟩
    · exact Or.inr hlast

end EndsAt

end Relations

/-! ## Searching without a bound -/

variable {next : α → Option α} {seen : List α}

/-- How the search for the end goes if nothing bounds it: on to the successor, for as long as there
is one and what is at hand was not seen. -/
inductive Settles (next : α → Option α) : List α → α → α → Prop
  | again {seen : List α} {x : α} (h : x ∈ seen) : Settles next seen x x
  | ended {seen : List α} {x : α} (h : x ∉ seen) (hx : next x = none) : Settles next seen x x
  | onward {seen : List α} {x y z : α} (h : x ∉ seen) (hxy : next x = some y)
      (hy : Settles next (x :: seen) y z) : Settles next seen x z

/-- The search has one answer. -/
theorem Settles.unique (h : Settles next seen x y) (h' : Settles next seen x z) : y = z := by
  induction h with
  | again hx =>
    cases h' with
    | again _ => rfl
    | ended hx' _ => exact absurd hx hx'
    | onward hx' _ _ => exact absurd hx hx'
  | ended hx hend =>
    cases h' with
    | again hx' => exact absurd hx' hx
    | ended _ _ => rfl
    | onward _ hstep _ =>
      rw [hend] at hstep
      cases hstep
  | onward hx hstep _ ih =>
    cases h' with
    | again hx' => exact absurd hx' hx
    | ended _ hend =>
      rw [hend] at hstep
      cases hstep
    | onward _ hstep' hrest =>
      rw [hstep] at hstep'
      cases hstep'
      exact ih hrest

/-- The search goes from one thing to the next, over things that are new, each once. It stops where
nothing comes next or at something that it met before. -/
theorem Settles.exists_path (h : Settles next seen x y) :
    ∃ before, (before ++ [y]).head? = some x ∧ (before ++ [y]).IsChain
      (fun a b => next a = some b) ∧
      before.Nodup ∧ (∀ z ∈ before, z ∉ seen) ∧ (next y = none ∨ y ∈ seen ∨ y ∈ before) := by
  induction h with
  | again hx => exact ⟨[], rfl, .singleton _, .nil, nofun, Or.inr (Or.inl hx)⟩
  | ended _ hend => exact ⟨[], rfl, .singleton _, .nil, nofun, Or.inl hend⟩
  | @onward seen x y z hx hstep _ ih =>
    obtain ⟨before, hhead, hchain, hnodup, hnew, hstop⟩ := ih
    refine ⟨x :: before, rfl, hchain.cons fun w hw => ?_,
      List.nodup_cons.2 ⟨fun hmem => ?_, hnodup⟩, fun w hw => ?_, ?_⟩
    · rw [hhead] at hw
      cases hw
      exact hstep
    · exact hnew x hmem List.mem_cons_self
    · rcases List.mem_cons.1 hw with rfl | hw
      · exact hx
      · exact fun hseen => hnew w hw (List.mem_cons_of_mem _ hseen)
    · rcases hstop with hend | hseen | hmem
      · exact Or.inl hend
      · rcases List.mem_cons.1 hseen with rfl | hseen
        · exact Or.inr (Or.inr List.mem_cons_self)
        · exact Or.inr (Or.inl hseen)
      · exact Or.inr (Or.inr (List.mem_cons_of_mem _ hmem))

theorem rightUnique_next : Relator.RightUnique fun a b => next a = some b :=
  fun _ _ _ h h' => Option.some.inj (h.symm.trans h')

/-- What the search answers is where the way ends. If it met the answer before, it went around a
cycle: the way up to the first meeting is the way to the cycle. -/
theorem Settles.exists_endsAt (h : Settles next [] x y) :
    ∃ before, EndsAt (fun a b => next a = some b) x before y := by
  obtain ⟨before, hhead, hchain, hnodup, -, hend | hseen | hmem⟩ := h.exists_path
  · have hfinal : ∀ z, next y ≠ some z := by simp [hend]
    refine ⟨before, hhead, hchain, fun z hz hcycle => ?_, Or.inl hfinal⟩
    have hleads := reflTransGen_of_isChain hchain (List.mem_append_left _ hz)
    obtain ⟨w, hw⟩ := (hcycle.along rightUnique_next hleads).exists_next
    exact hfinal w hw
  · cases hseen
  · obtain ⟨way, around, rfl⟩ := List.append_of_mem hmem
    rw [List.append_assoc, List.cons_append] at hchain hhead
    obtain ⟨hway, hcircle⟩ := List.isChain_split.1 hchain
    refine ⟨way, ?_, hway, fun z hz hcycle => ?_, Or.inr (onCycle_of_isChain hcircle)⟩
    · rw [← hhead]
      cases way <;> rfl
    · -- What lies on a cycle before `y` would have been passed on the way around as well.
      have hleads := reflTransGen_of_isChain hway (List.mem_append_left _ hz)
      have hback := mem_of_reflTransGen_around rightUnique_next hcircle
        (hcycle.back rightUnique_next hleads)
      exact List.disjoint_of_nodup_append hnodup hz hback

variable [DecidableEq α] {sources : List α}

/-! ## What a chain lists -/

/-- Following successors leads from one to the next. -/
theorem reflTransGen_of_mem_chain {bound : Nat} (h : y ∈ chain next bound seen x) :
    ReflTransGen (fun a b => next a = some b) x y := by
  induction bound generalizing seen x with
  | zero =>
    unfold chain at h
    split at h
    · cases h
    · rw [List.mem_singleton] at h
      exact h ▸ .refl
  | succ bound ih =>
    unfold chain at h
    split at h
    · cases h
    · rcases List.mem_cons.1 h with rfl | h
      · exact .refl
      · split at h
        · rename_i z hz
          exact .head hz (ih h)
        · cases h

/-- Nothing comes up twice. -/
theorem nodup_chain (bound : Nat) (seen : List α) (x : α) :
    (chain next bound seen x).Nodup ∧ ∀ y ∈ chain next bound seen x, y ∉ seen := by
  induction bound generalizing seen x with
  | zero =>
    unfold chain
    split
    · exact ⟨List.nodup_nil, nofun⟩
    · rename_i hx
      exact ⟨List.nodup_singleton x, fun y hy => List.mem_singleton.1 hy ▸ hx⟩
  | succ bound ih =>
    unfold chain
    split
    · exact ⟨List.nodup_nil, nofun⟩
    · rename_i hx
      split
      · rename_i z _
        obtain ⟨hnodup, hnew⟩ := ih (x :: seen) z
        refine ⟨List.nodup_cons.2 ⟨fun h => hnew x h List.mem_cons_self, hnodup⟩, fun y hy => ?_⟩
        rcases List.mem_cons.1 hy with rfl | hy
        · exact hx
        · exact fun hseen => hnew y hy (List.mem_cons_of_mem _ hseen)
      · exact ⟨List.nodup_singleton x, fun y hy => List.mem_singleton.1 hy ▸ hx⟩

/-! ## Bounds -/

/-- How many of `sources` were not seen. -/
def unseen (sources seen : List α) : Nat :=
  (sources.toFinset \ seen.toFinset).card

theorem unseen_cons_lt (hx : x ∉ seen) (hmem : x ∈ sources) :
    unseen sources (x :: seen) < unseen sources seen := by
  unfold unseen
  rw [List.toFinset_cons, Finset.sdiff_insert]
  exact Finset.card_erase_lt_of_mem (by simp [hx, hmem])

theorem unseen_le (sources seen : List α) : unseen sources seen ≤ sources.length :=
  Nat.le_trans (Finset.card_le_card Finset.sdiff_subset) (List.toFinset_card_le sources)

/-- When all that have a successor were seen, what is new has none. -/
theorem next_eq_none (hnext : ∀ x y, next x = some y → x ∈ sources) (hall : unseen sources seen ≤ 0)
    (hx : x ∉ seen) : next x = none :=
  Option.eq_none_iff_forall_ne_some.2 fun y hy => by
    have hlt := unseen_cons_lt hx (hnext x y hy)
    omega

/-- A bound on the things that have a successor is no bound on the chain. -/
theorem chain_succ (hnext : ∀ x y, next x = some y → x ∈ sources) {bound : Nat}
    (hbound : unseen sources seen ≤ bound) :
    chain next (bound + 1) seen x = chain next bound seen x := by
  induction bound generalizing seen x with
  | zero =>
    by_cases hx : x ∈ seen
    · simp only [chain, hx, if_true]
    · simp only [chain, hx, if_false, next_eq_none hnext hbound hx]
  | succ bound ih =>
    rw [chain, chain]
    by_cases hx : x ∈ seen
    · rw [if_pos hx, if_pos hx]
    · rw [if_neg hx, if_neg hx]
      cases hy : next x with
      | none => rfl
      | some y =>
        have hlt := unseen_cons_lt hx (hnext x y hy)
        dsimp only
        rw [ih (by omega)]

/-- A chain that is not cut off goes on until it comes to what it has seen. -/
theorem chain_closed (hnext : ∀ x y, next x = some y → x ∈ sources) {bound : Nat}
    (hbound : unseen sources seen ≤ bound) {z : α} (hy : y ∈ chain next bound seen x)
    (hz : next y = some z) : z ∈ chain next bound seen x ∨ z ∈ seen := by
  induction bound generalizing seen x with
  | zero =>
    unfold chain at hy
    split at hy
    · cases hy
    · rename_i hx
      rw [List.mem_singleton] at hy
      subst hy
      have hlt := unseen_cons_lt hx (hnext y z hz)
      omega
  | succ bound ih =>
    unfold chain at hy ⊢
    split at hy
    · cases hy
    · rename_i hx
      rw [if_neg hx]
      have hstart : z ∈ chain next bound (x :: seen) z ∨ z ∈ x :: seen := by
        by_cases hzs : z ∈ x :: seen
        · exact Or.inr hzs
        · cases bound <;> simp [chain, hzs]
      have hrest : (∃ w, next x = some w ∧
          (z ∈ chain next bound (x :: seen) w ∨ z ∈ x :: seen)) := by
        rcases List.mem_cons.1 hy with rfl | hy
        · exact ⟨z, hz, hstart⟩
        · split at hy
          · rename_i w hw
            have hlt := unseen_cons_lt hx (hnext x w hw)
            exact ⟨w, hw, ih (by omega) hy⟩
          · cases hy
      obtain ⟨w, hw, hin⟩ := hrest
      rw [hw]
      rcases hin with hin | hin
      · exact Or.inl (List.mem_cons_of_mem _ hin)
      · rcases List.mem_cons.1 hin with rfl | hin
        · exact Or.inl List.mem_cons_self
        · exact Or.inr hin

/-- A bound on the things that have a successor does not cut the search short. -/
theorem settles_settle (hnext : ∀ x y, next x = some y → x ∈ sources) {bound : Nat}
    (hbound : unseen sources seen ≤ bound) : Settles next seen x (settle next bound seen x) := by
  induction bound generalizing seen x with
  | zero =>
    by_cases hx : x ∈ seen
    · exact .again hx
    · exact .ended hx (next_eq_none hnext hbound hx)
  | succ bound ih =>
    unfold settle
    by_cases hx : x ∈ seen
    · rw [if_pos hx]
      exact .again hx
    · rw [if_neg hx]
      cases hy : next x with
      | none => exact .ended hx hy
      | some y =>
        have hlt := unseen_cons_lt hx (hnext x y hy)
        exact .onward hx hy (ih (by omega))

end Reach

end PointsTo
