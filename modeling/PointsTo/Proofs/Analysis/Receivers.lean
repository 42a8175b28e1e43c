import PointsTo.Proofs.Analysis.Closure

/-!
# Closure under receivers

When an analysis completes, the objects at the receiver of a call that fit the callee are at the
receiver of the callee. There is the same exception as for accesses to fields: what a node reads
from a field of an object that it points to itself comes after the part of the visit that passes
receivers on, and counts as passed on all the same (`Pag.ReadsItself`). The program `chainCall`
loses a receiver this way.
-/

namespace PointsTo.Analysis

variable {p : Program} {seed : Seed} {entries : List MethodSig} {c : Config} {scale : Scale}
  {a : Analysis}

/-- The receivers at `src` that fit are at `dst`, those aside that `src` has read through itself. -/
theorem Finished.this (h : Finished p scale a) {src dst o : NodeId}
    (he : ⟨.this, src, dst⟩ ∈ a.pag.edges) (ho : o ∈ a.pag.ptsOf src)
    (hfits : fitsThis p a.pag dst o = true) :
    o ∈ a.pag.ptsOf dst ∨ a.pag.ReadsItself src o := by
  rcases h.edgeApplied he o (h.settled ho) hfits with hall | hlate
  · exact Or.inl (h.mem_all.1 hall)
  · exact Or.inr (h.readsItself hlate)

namespace Sample

open Program

/-- `a.next = b; b.next = c; x = a; x = x.next; x.m()`, where `a`, `b` and `c` are new objects of a
class with a method `m` that reads its receiver. -/
def chainCall : Program :=
  let (cls, p) := (addFile {} file false).2.addClass file "A" none
  let (m, p) := p.addMethod cls "m"
  let d := p.openBody main
  let (a, d) := d.localVar "a" .any
  let (b, d) := d.localVar "b" .any
  let (c, d) := d.localVar "c" .any
  let (x, d) := d.localVar "x" .any
  let (_, d) := d.assignNew a (.newObject cls)
  let (_, d) := d.assignNew b (.newObject cls)
  let (_, d) := d.assignNew c (.newObject cls)
  let (_, d) := d.storeField a "next" b
  let (_, d) := d.storeField b "next" c
  let (_, d) := d.assign x a
  let (_, d) := d.loadField x x "next"
  let (_, d) := d.call none { kind := .member, method := m, base := some x, args := [] }
  (d.close.openBody m).thisLocal.2.close

end Sample

open Sample

/-- A receiver that fits gets to the receiver of the callee, unless it was read into the receiver of
the call from a field of an object at that same node. -/
theorem receivers_closed (h : Completes p seed entries c a) {src dst o : NodeId}
    (he : ⟨.this, src, dst⟩ ∈ a.pag.edges) (ho : o ∈ a.pag.ptsOf src)
    (hfits : fitsThis p a.pag dst o = true) (hself : ¬a.pag.ReadsItself src o) :
    o ∈ a.pag.ptsOf dst :=
  (h.finished.this he ho hfits).resolve_right hself

/-- The object 0 that `x` gets by `x = a` is at the receiver 12 of `m`. -/
theorem receivers_closed_chainCall : Completes chainCall .direct [main] default (result chainCall) ∧
    ⟨.this, 8, 12⟩ ∈ (result chainCall).pag.edges ∧ 0 ∈ (result chainCall).pag.ptsOf 8 ∧
      0 ∈ (result chainCall).pag.ptsOf 12 := by
  obtain ⟨hok, he, ho, hfits, hload, haccess, hfields⟩ : (run chainCall).1.isOk = true ∧
      ⟨.this, 8, 12⟩ ∈ (result chainCall).pag.edges ∧ 0 ∈ (result chainCall).pag.ptsOf 8 ∧
      fitsThis chainCall (result chainCall).pag 12 0 = true ∧
      (∀ e ∈ (result chainCall).pag.edges, e.kind = .load → e.src = 9) ∧
      ((result chainCall).pag.node? 9).map (fun n => n.kind.reference?) =
        some (some (some 8, .named "next")) ∧
      ∀ obj ∈ (result chainCall).pag.ptsOf 8,
        ∀ f ∈ (result chainCall).pag.fieldNode? obj (.named "next"),
          0 ∉ (result chainCall).pag.ptsOf f := by
    decide +kernel
  refine ⟨completes_result hok, he, ho, receivers_closed (completes_result hok) he ho hfits ?_⟩
  -- The one load is of the field `next`, and no such field has the object.
  rintro ⟨r, key, obj, f, ⟨node, hnode, -, hkind⟩, hr, hobj, hf, hmem⟩
  cases hload _ hr rfl
  rw [hnode, Option.map_some, hkind] at haccess
  cases haccess
  exact hfields obj hobj f hf hmem

/-- The exception cannot be left out: after `x = x.next` in `chainCall` the node 8 of `x` has the
object 4, which fits the receiver 12 of `m` and is not there. -/
theorem receivers_not_closed : (default : Config).Valid ∧
    ∃ a, Completes chainCall .direct [main] default a ∧ ⟨.this, 8, 12⟩ ∈ a.pag.edges ∧
      4 ∈ a.pag.ptsOf 8 ∧ fitsThis chainCall a.pag 12 4 = true ∧ 4 ∉ a.pag.ptsOf 12 := by
  obtain ⟨hok, hlost⟩ : (run chainCall).1.isOk = true ∧
      ⟨.this, 8, 12⟩ ∈ (result chainCall).pag.edges ∧ 4 ∈ (result chainCall).pag.ptsOf 8 ∧
      fitsThis chainCall (result chainCall).pag 12 4 = true ∧
      4 ∉ (result chainCall).pag.ptsOf 12 := by
    decide +kernel
  exact ⟨by decide, result chainCall, completes_result hok, hlost⟩

end PointsTo.Analysis
