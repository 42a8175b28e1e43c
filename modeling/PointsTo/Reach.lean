/-!
# Walks and chains

Two searches that the analyses share.

* `walk` visits everything reachable along a list of edges, depth first, each thing once.
* `chain` and `settle` follow successors, which not everything has, until they end or repeat.

## Why they stop

A step of `walk` either drops a visited thing from the stack, or visits a new one and pushes its
successors. The edges out of unvisited things and the stack together then shrink by one: the
successors pushed are exactly the edges that leave the first count.

`chain` and `settle` take a bound, the number of things that have a successor. They remember what
they have seen, so a run never takes more steps than that.
-/

namespace PointsTo.Reach

variable {α : Type} [DecidableEq α]

/-- Where the edges out of `x` lead, in the order of the edges. -/
def successors (edges : List (α × α)) (x : α) : List α :=
  (edges.filter fun e => e.1 = x).map (·.2)

/-- The edges whose source has not been visited. -/
def remaining (edges : List (α × α)) (visited : List α) : Nat :=
  edges.countP fun e => e.1 ∉ visited

theorem remaining_visit (edges : List (α × α)) {visited : List α} {x : α} (h : x ∉ visited) :
    remaining edges (visited ++ [x]) + (successors edges x).length = remaining edges visited := by
  induction edges with
  | nil => simp [remaining, successors]
  | cons e es ih => simp only [remaining, successors] at ih ⊢; grind

/-- Visits what is reachable from `stack`, the top of which comes first, and lists it in the order
of the visits, after what was visited before. -/
def walk (edges : List (α × α)) (stack visited : List α) : List α :=
  match stack with
  | [] => visited
  | x :: rest =>
    if _h : x ∈ visited then walk edges rest visited
    else walk edges ((successors edges x).reverse ++ rest) (visited ++ [x])
termination_by remaining edges visited + stack.length
decreasing_by
  · simp
  · have := remaining_visit edges _h
    simp only [List.length_append, List.length_reverse, List.length_cons]
    omega

/-- The things from `x` on, each the successor of the one before, up to the first repetition. -/
def chain (next : α → Option α) : Nat → List α → α → List α
  | 0, seen, x => if x ∈ seen then [] else [x]
  | bound + 1, seen, x =>
    if x ∈ seen then []
    else x :: match next x with
      | some y => chain next bound (x :: seen) y
      | none => []

/-- Where following successors from `x` ends: at a thing without one, or at the first thing that
comes up a second time. -/
def settle (next : α → Option α) : Nat → List α → α → α
  | 0, _, x => x
  | bound + 1, seen, x =>
    if x ∈ seen then x
    else match next x with
      | some y => settle next bound (x :: seen) y
      | none => x

end PointsTo.Reach
