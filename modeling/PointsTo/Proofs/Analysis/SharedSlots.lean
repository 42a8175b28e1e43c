import PointsTo.Proofs.Analysis.Callbacks
import PointsTo.Proofs.Repetition.Runs

/-!
# Shared slots have one node

Static fields, the global object, exports and the fields of objects are slots that different
requests share. Who asks first, by which request and in which context, must not matter: a load and a
store that ask for one slot have to get one node.

Requests put what is shared into the root context and a field into the context of its object's
fields. So the graph stays in place, and no entity gets a second node in a context
(`Build.nodeOf_keepsWellPlaced`). In a run this holds as well (`Builder.InUse.confined`), so it does
whenever and in whatever order nodes are asked for (`Builder.shared_slots`).
-/

namespace PointsTo

namespace Builder

variable {p : Program} {b b' : Builder}

/-- Nodes are where they belong, and no entity has two in one context. -/
structure WellPlaced (b : Builder) : Prop where
  inPlace : b.pag.InPlace
  unique : b.pag.Unique

/-- The graph grows, and stays as it has to be. -/
structure KeepsWellPlaced (b b' : Builder) : Prop where
  extends_ : b.pag.Extends b'.pag
  wellPlaced : b.WellPlaced → b'.WellPlaced

instance : IsPreorder Builder KeepsWellPlaced where
  refl _ := ⟨.rfl, id⟩
  trans _ _ _ h h' := ⟨h.extends_.trans h'.extends_, fun hb => h'.wellPlaced (h.wellPlaced hb)⟩

/-- No node is made. -/
theorem keepsWellPlaced_of_extends (h : b.pag.Extends b'.pag)
    (size : b'.pag.nodes.size = b.pag.nodes.size) : b.KeepsWellPlaced b' :=
  ⟨h, fun hb => ⟨hb.inPlace.of_extends h size, hb.unique.of_extends h size⟩⟩

theorem keepsWellPlaced_addNode {cid : ContextId} {e : Entity} (h : b.pag.Belongs cid e)
    (kind : NodeKind) : b.KeepsWellPlaced { b with pag := (b.pag.addNode cid e kind).2 } :=
  ⟨b.pag.addNode_extends cid e kind,
    fun hb => ⟨hb.inPlace.addNode h kind, hb.unique.addNode cid e kind⟩⟩

end Builder

namespace Build

open Builder (KeepsWellPlaced)

variable {p : Program} {b : Builder}

/-! ## One request -/

theorem addEdge_keepsWellPlaced {kind : EdgeKind} {src dst : NodeId} :
    Guarantees KeepsWellPlaced (addEdge kind src dst) := by
  intro b
  rw [Builder.run_addEdge]
  refine Builder.keepsWellPlaced_of_extends (b.pag.addEdge_extends kind src dst) ?_
  rw [Pag.nodes_addEdge]

theorem link_keepsWellPlaced {v : ValueId} {target : NodeId} {kind : EdgeKind} :
    Guarantees KeepsWellPlaced (link v target kind) := by
  intro b
  have h : Spec KeepsWellPlaced (link v target kind) b fun _ _ => True := by
    refine .get_bind ?_
    split
    · exact .pure trivial
    · refine .set_bind (Builder.keepsWellPlaced_of_extends .rfl rfl) ?_
      exact .forM_any fun _ _ _ _ => .discard addEdge_keepsWellPlaced.spec
  exact h.1

theorem onNewNode_keepsWellPlaced {n : NodeId} {e : Entity} :
    Guarantees KeepsWellPlaced (onNewNode p n e) := by
  have coming : ∀ v, Guarantees KeepsWellPlaced (do
      ((← get).links.filter fun l => l.1 = v).forM fun l => discard (addEdge l.2.1 n l.2.2)) :=
    fun v => .bind .get fun b => .forM fun _ _ => .discard addEdge_keepsWellPlaced
  unfold onNewNode
  split
  · rename_i v
    dsimp only
    split
    · split
      · exact .bind link_keepsWellPlaced fun _ => coming v
      · exact coming v
    · exact coming v
  · exact .pure

theorem funcOf_keepsWellPlaced {m : MethodSig} {missing : FuncKind} :
    Guarantees KeepsWellPlaced (funcOf p m missing) :=
  fun _ => Builder.keepsWellPlaced_of_extends .rfl rfl

theorem kindOf_keepsWellPlaced {baseNode : ValueId → Build (Option NodeId)} {e : Entity}
    (hbase : ∀ base, Spec KeepsWellPlaced (baseNode base) b fun _ _ => True) :
    Spec KeepsWellPlaced (kindOf p baseNode e) b fun _ _ => True := by
  cases e with
  | value v =>
    show Spec KeepsWellPlaced (kindOfValue p baseNode v) b _
    unfold kindOfValue
    split
    case h_5 => exact .seq funcOf_keepsWellPlaced.spec fun _ _ _ => .pure trivial
    case h_7 base _ _ | h_8 base _ _ => exact .seq (hbase base) fun _ _ _ => .pure trivial
    all_goals exact .pure trivial
  | _ => exact .pure trivial

/-- A node that is made where it belongs. -/
theorem nodeWithKind_keepsWellPlaced {cid : ContextId} {e : Entity} {kind : NodeKind}
    (hbelongs : b.pag.Belongs cid e) :
    Spec KeepsWellPlaced (nodeWithKind p cid e kind) b fun n b' => b'.pag.entity? n = some e := by
  have hadd := Builder.keepsWellPlaced_addNode hbelongs kind
  have hfound := b.pag.find?_addNode cid e kind
  unfold nodeWithKind
  refine .get_bind ?_
  generalize b.pag.addNode cid e kind = r at hadd hfound ⊢
  obtain ⟨⟨n, isNew⟩, pag⟩ := r
  have hentity : pag.entity? n = some e := Pag.entity?_of_find? hfound
  refine .modify_bind hadd ?_
  dsimp only
  split
  · exact .seq onNewNode_keepsWellPlaced.spec fun _ b₁ h₁ => .pure (h₁.extends_.entity? hentity)
  · exact .pure hentity

/-- The context that a node is asked for in does not count where the node belongs elsewhere. -/
theorem belongs_requested {e : Entity} (he : ∀ obj key, e = .objField obj key →
    obj < b.pag.nodes.size) {g : Pag} (hg : b.pag.Extends g) (cid : ContextId) :
    g.Belongs (contextOf b.pag cid e) e := by
  cases e with
  | objField obj key =>
    have hobj := he obj key rfl
    show g.Belongs (b.pag.fieldContext obj) (.objField obj key)
    rw [← hg.fieldContext hobj]
    exact Pag.belongs_field (hg.lt hobj)
  | _ => exact belongs_contextOf rfl b.pag g cid

theorem obtain_keepsWellPlaced {baseNode : ContextId → ValueId → Build (Option NodeId)}
    {cid : ContextId} {e : Entity} (he : ∀ obj key, e = .objField obj key → obj < b.pag.nodes.size)
    (hbase : ∀ cid base, Spec KeepsWellPlaced (baseNode cid base) b fun _ _ => True) :
    Spec KeepsWellPlaced (obtain p baseNode cid e) b fun n b' => b'.pag.entity? n = some e := by
  unfold obtain
  refine .get_bind ?_
  dsimp only
  split
  · rename_i n hn
    exact .pure (Pag.entity?_of_find? hn)
  · refine .seq (kindOf_keepsWellPlaced (hbase _)) fun kind b₁ h₁ => ?_
    exact nodeWithKind_keepsWellPlaced (belongs_requested he h₁.extends_ cid)

theorem nodeWithin_keepsWellPlaced (depth : Nat) {cid : ContextId} {e : Entity}
    (he : ∀ obj key, e = .objField obj key → obj < b.pag.nodes.size) :
    Spec KeepsWellPlaced (nodeWithin p depth cid e) b fun n b' => b'.pag.entity? n = some e := by
  induction depth generalizing b cid e with
  | zero => exact obtain_keepsWellPlaced he fun _ _ => .pure trivial
  | succ depth ih =>
    refine obtain_keepsWellPlaced he fun cid base => .map (ih fun obj key hfield => ?_).any
    -- What is read through is no field.
    have hplain := entityOf_isPlain p base
    rw [hfield] at hplain
    exact absurd hplain id

/-- **One request.** The graph stays in place, and the node that is given is that of the entity. -/
theorem nodeOf_keepsWellPlaced {cid : ContextId} {e : Entity}
    (he : ∀ obj key, e = .objField obj key → obj < b.pag.nodes.size) :
    Spec KeepsWellPlaced (nodeOf p cid e) b fun n b' => b'.pag.entity? n = some e :=
  nodeWithin_keepsWellPlaced (depth e) he

theorem fieldNode_keepsWellPlaced {obj : NodeId} {key : FieldKey} {cloneOf : Option NodeId}
    (hobj : obj < b.pag.nodes.size) : Spec KeepsWellPlaced (fieldNode obj key cloneOf) b fun n b' =>
      b'.pag.entity? n = some (.objField obj key) :=
  ⟨Builder.keepsWellPlaced_addNode (Pag.belongs_field hobj) _,
    Pag.entity?_of_find? (b.pag.find?_addNode _ _ _)⟩

end Build

/-! ## Any requests -/

/-- The ways in which nodes are asked for: by a value, by what the node stands for, and by an object
and the key of a field. -/
inductive NodeRequest where
  | value (cid : ContextId) (v : ValueId)
  | entity (cid : ContextId) (e : Entity)
  | field (obj : NodeId) (key : FieldKey) (cloneOf : Option NodeId)

namespace NodeRequest

/-- What the node stands for. -/
def target (p : Program) : NodeRequest → Entity
  | value _ v => Build.entityOf p v
  | entity _ e => e
  | field obj key _ => .objField obj key

/-- The node that is given. -/
def answer (p : Program) : NodeRequest → Build NodeId
  | value cid v => Build.valueNode p cid v
  | entity cid e => Build.nodeOf p cid e
  | field obj key cloneOf => Build.fieldNode obj key cloneOf

/-- If the request is for a field of an object, there is such a node. -/
def NamesNode (p : Program) (g : Pag) (r : NodeRequest) : Prop :=
  ∀ obj key, r.target p = .objField obj key → obj < g.nodes.size

theorem answer_keepsWellPlaced {p : Program} {b : Builder} {r : NodeRequest}
    (hr : r.NamesNode p b.pag) :
    Spec Builder.KeepsWellPlaced (r.answer p) b fun n b' =>
      b'.pag.entity? n = some (r.target p) := by
  cases r with
  | value | entity => exact Build.nodeOf_keepsWellPlaced hr
  | field obj key => exact Build.fieldNode_keepsWellPlaced (hr obj key rfl)

end NodeRequest

namespace Builder

variable {s : Setting} {p : Program} {b b' : Builder}

/-- Requests for nodes, one after the other, and the nodes that were given. -/
inductive Answers (p : Program) (b : Builder) : List (NodeRequest × NodeId) → Builder → Prop
  | none : Answers p b [] b
  | one {rs : List (NodeRequest × NodeId)} {b' : Builder} (h : Answers p b rs b') (r : NodeRequest)
    (hr : r.NamesNode p b'.pag) :
    Answers p b (rs ++ [(r, ((r.answer p).run b').1)]) ((r.answer p).run b').2

theorem Answers.keepsWellPlaced {rs : List (NodeRequest × NodeId)} (h : Answers p b rs b') :
    b.KeepsWellPlaced b' ∧ ∀ x ∈ rs, b'.pag.entity? x.2 = some (x.1.target p) := by
  induction h with
  | none => exact ⟨refl_of KeepsWellPlaced b, fun x hx => absurd hx List.not_mem_nil⟩
  | one _ r hr ih =>
    obtain ⟨hhouses, hanswers⟩ := ih
    obtain ⟨hnext, hgiven⟩ := NodeRequest.answer_keepsWellPlaced hr
    refine ⟨trans_of KeepsWellPlaced hhouses hnext, fun x hx => ?_⟩
    rcases List.mem_append.1 hx with hx | hx
    · exact hnext.extends_.entity? (hanswers x hx)
    · cases List.mem_singleton.1 hx
      exact hgiven

/-- The next requests, with their answers. -/
def answerAll (p : Program) (rs : List NodeRequest) (x : List (NodeRequest × NodeId) × Builder) :
    List (NodeRequest × NodeId) × Builder :=
  rs.foldl (fun x r => (x.1 ++ [(r, ((r.answer p).run x.2).1)], ((r.answer p).run x.2).2)) x

/-- Whatever names nodes that there are can be asked for. -/
theorem Answers.all {x : List (NodeRequest × NodeId) × Builder} (h : Answers p b x.1 x.2)
    (rs : List NodeRequest) (hrs : ∀ r ∈ rs, r.NamesNode p x.2.pag) :
    Answers p b (answerAll p rs x).1 (answerAll p rs x).2 := by
  induction rs generalizing x with
  | nil => exact h
  | cons r rs ih =>
    have hr := hrs r List.mem_cons_self
    have hgrown := (NodeRequest.answer_keepsWellPlaced hr).1.extends_
    refine ih (h.one r hr) fun r' hr' obj key hfield => ?_
    exact hgrown.lt (hrs r' (List.mem_cons_of_mem _ hr') obj key hfield)

/-- The builders that there are in a run, and what becomes of them when further methods are
entered. -/
inductive InUse (s : Setting) : Builder → Prop
  | analysis {a : Analysis} (h : Analysis.Reachable s a) : InUse s a.builder
  | enter {b : Builder} (h : InUse s b) {cid : ContextId} {f : FuncId}
      (target : b.HasTarget cid f) :
    InUse s ((Build.enterNow s f cid).run.run b).2

theorem InUse.confined (hs : s.IsStandard) (h : b.InUse s) :
    ∃ g, b.Confined s.program g := by
  induction h with
  | analysis h => exact (h.turnInvariant hs).confined
  | @enter b _ cid f target ih =>
    obtain ⟨g, hb⟩ := ih
    have hends : Terminates s.program.IsMisplaced (KeepsConfined s.program g) (Exceeds 0)
        (fun n => Build.enterNow (s.withFuel n) f cid) b fun _ _ => True :=
      Build.enterNow_terminates hs hb target
    exact ⟨g, (hends.runs s.fuel).spec.1.confined hb⟩

theorem InUse.wellPlaced (hs : s.IsStandard) (h : b.InUse s) : b.WellPlaced := by
  obtain ⟨g, hb⟩ := h.confined hs
  exact ⟨hb.pag.inPlace, hb.pag.unique⟩

/-- **Shared slots have one node.** Whatever nodes are asked for, after a run or within one: a
static field, the global object and an export have one node at most, which is in the root context. A
field of an object has one node at most. It is the one that the object has for the key, and its
context only depends on whether the object is a container, which stays as it is. So the element
slots of two objects are two nodes. And what was given for a request is a node of what was asked
for, the same for all requests for something shared or a field. -/
theorem shared_slots (hs : s.IsStandard) (h : b.InUse s) {rs : List (NodeRequest × NodeId)}
    (hr : Answers s.program b rs b') :
    (∀ n x, b'.pag.node? n = some x → x.entity.IsShared → x.cid = Context.root ∧
      ∀ n', b'.pag.entity? n' = some x.entity → n' = n) ∧
    (∀ n x obj key, b'.pag.node? n = some x → x.entity = .objField obj key →
      x.cid = (if b'.pag.isContainer obj then Context.container else Context.root) ∧
      b'.pag.fieldOf? obj key = some n ∧
      ∀ n', b'.pag.entity? n' = some (.objField obj key) → n' = n) ∧
    (∀ obj < b.pag.nodes.size, b'.pag.isContainer obj = b.pag.isContainer obj) ∧
    (∀ o o' n n', o ≠ o' → b'.pag.fieldOf? o .element = some n →
      b'.pag.fieldOf? o' .element = some n' → n ≠ n') ∧
    ∀ x ∈ rs, b'.pag.entity? x.2 = some (x.1.target s.program) ∧
      ∀ x' ∈ rs, x'.1.target s.program = x.1.target s.program →
        (x.1.target s.program).IsShared ∨ (x.1.target s.program).isObjField = true →
        x'.2 = x.2 := by
  obtain ⟨hhouses, hgiven⟩ := hr.keepsWellPlaced
  obtain ⟨hplace, hunique⟩ := hhouses.wellPlaced (h.wellPlaced hs)
  refine ⟨?_, ?_, ?_, ?_, ?_⟩
  · intro n x hx hshared
    have hn : b'.pag.entity? n = some x.entity := by rw [Pag.entity?, hx, Option.map_some]
    exact ⟨hplace.shared hx hshared, fun n' hn' =>
      hplace.eq_of_entity hunique (Or.inl hshared) hn' hn⟩
  · intro n x obj key hx he
    have hn : b'.pag.entity? n = some (.objField obj key) := by
      rw [Pag.entity?, hx, Option.map_some, he]
    exact ⟨(hplace.field hx he).2, hplace.fieldOf?_eq hunique hn, fun n' hn' =>
      hplace.eq_of_entity hunique (Or.inr rfl) hn' hn⟩
  · exact fun obj hobj => hhouses.extends_.isContainer hobj
  · rintro o o' n _ hne hn hn' rfl
    have he := Pag.entity?_of_fieldOf? hn
    rw [Pag.entity?_of_fieldOf? hn'] at he
    cases he
    exact hne rfl
  · intro x hx
    refine ⟨hgiven x hx, fun x' hx' hsame hcase => ?_⟩
    exact hplace.eq_of_entity hunique hcase (hsame ▸ hgiven x' hx') (hgiven x hx)

namespace Sample

open Analysis Analysis.Sample

/-- What a run of `visiting` leaves. The array is the node 0. -/
def used : Builder :=
  ((solve (setting visiting) .wholeProgram).run.run
    (Analysis.ofGraph (Seed.direct.graph visiting [main]) default)).2.builder

/-- The global object in two contexts, and the elements of the array in two ways. -/
def requests : List NodeRequest :=
  [.entity 1 .globalThis, .entity 0 .globalThis, .field 0 .element none,
    .entity 1 (.objField 0 .element)]

/-- The requests one after the other, with the nodes that are given. -/
def asked : List (NodeRequest × NodeId) × Builder :=
  answerAll visiting requests ([], used)

end Sample

open Sample Analysis.Sample

/-- The global object is made for the first request. The elements were there before, and have the
context of containers, which is none that they are asked for in. -/
theorem shared_slots_visiting : used.InUse (setting visiting) ∧
    Answers visiting used asked.1 asked.2 ∧ asked.1.map Prod.snd = [9, 9, 6, 6] ∧
    used.pag.nodes.size = 9 ∧ asked.2.pag.nodes.size = 10 ∧
    (∀ n, asked.2.pag.entity? n = some .globalThis → n = 9) ∧
    (asked.2.pag.node? 6).map Node.cid = some Context.container ∧
    ∀ n, asked.2.pag.entity? n = some (.objField 0 .element) → n = 6 := by
  have hs : (setting visiting).IsStandard := rfl
  have hused : used.InUse (setting visiting) :=
    .analysis (.solve hs (.start .direct [main] default) .wholeProgram)
  have hobj : 0 < used.pag.nodes.size := by decide +kernel
  have hanswers : Answers visiting used asked.1 asked.2 := by
    refine Answers.all .none requests fun r hr obj key hfield => ?_
    have hzero : ∀ r ∈ requests, r.target visiting = .globalThis ∨
        r.target visiting = .objField 0 .element := by decide
    rcases hzero r hr with h | h <;> cases h.symm.trans hfield
    exact hobj
  obtain ⟨hsize, hsize', hgiven, hx, hx'⟩ : used.pag.nodes.size = 9 ∧
      asked.2.pag.nodes.size = 10 ∧ asked.1.map Prod.snd = [9, 9, 6, 6] ∧
      (asked.2.pag.node? 9).map (fun x => (x.cid, x.entity)) =
        some (Context.root, .globalThis) ∧
      (asked.2.pag.node? 6).map (fun x => (x.cid, x.entity)) =
        some (Context.container, .objField 0 .element) := by
    decide +kernel
  obtain ⟨x, hx, heq⟩ := Option.map_eq_some_iff.1 hx
  obtain ⟨x', hx', heq'⟩ := Option.map_eq_some_iff.1 hx'
  obtain ⟨hshared, hfields, -⟩ := shared_slots hs hused hanswers
  have hentity : x.entity = .globalThis := congrArg Prod.snd heq
  refine ⟨hused, hanswers, hgiven, hsize, hsize', fun n hn => ?_, ?_, ?_⟩
  · exact (hshared 9 x hx (by rw [hentity]; trivial)).2 n (by rw [hentity]; exact hn)
  · rw [hx']
    exact congrArg (fun c => some c.1) heq'
  · exact (hfields 6 x' 0 .element hx' (congrArg Prod.snd heq')).2.2

end Builder

end PointsTo
