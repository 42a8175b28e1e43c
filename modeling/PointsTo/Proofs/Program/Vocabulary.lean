import Mathlib.Data.Set.Finite.Lattice
import Mathlib.Data.Set.Finite.List
import PointsTo.Library.Standard
import PointsTo.Program.Hierarchy
import PointsTo.Proofs.Program.Dealiasing

/-!
# What a program has words for

A program is finite, so it mentions finitely many values, fields, methods and calls. An analysis
makes nodes for what the program mentions and for nothing else. What it can tell apart beyond that
comes from contexts, from the objects that fields belong to, and from the functions that `bind`
makes functions of.

Each kind of thing has a predicate here that says which of it there is, with the proof that this is
not much (`_finite`), and with a lemma for each way in which an analysis gets hold of such a thing.
-/

namespace PointsTo

/-- What is read off the elements of an array is finite. -/
theorem finite_filterMap {α β : Type} (xs : Array α) (f : α → Option β) :
    {y | ∃ x ∈ xs, f x = some y}.Finite := by
  refine (List.finite_toSet (xs.toList.filterMap f)).subset ?_
  rintro y ⟨x, hx, hy⟩
  exact List.mem_filterMap.2 ⟨x, Array.mem_toList_iff.2 hx, hy⟩

namespace Value

/-- The value that a value is read through or called on. -/
def base? : Value → Option ValueId
  | fieldRef base _ | elementRef base _ => some base
  | invoke call => call.base
  | _ => none

/-- The field that a value reads or writes. -/
def fieldKey? : Value → Option FieldKey
  | fieldRef _ field | staticRef field => some (.ofSig field)
  | captured _ name => some (.named name)
  | _ => none

/-- The method that a value refers to or belongs to. -/
def method? : Value → Option MethodSig
  | functionRef m | localVar _ _ m => some m
  | _ => none

/-- Whether the value is a place that can be assigned to. -/
def isPlace : Value → Bool
  | localVar .. | fieldRef .. | elementRef .. | staticRef _ | captured .. => true
  | _ => false

end Value

namespace Program

variable {p : Program} {g : CallGraph} {v w : ValueId} {stmt : StmtId} {m : MethodSig}

theorem mem_values {x : Value} (h : p.value? v = some x) : x ∈ p.values :=
  Array.mem_of_getElem? h

theorem mem_stmts {st : Stmt} (h : p.stmt? stmt = some st) : st ∈ p.stmts :=
  Array.mem_of_getElem? h

/-- The statement makes the call. -/
theorem mem_values_of_invokeOf? {i : Invoke} (h : p.invokeOf? stmt = some i) :
    .invoke i ∈ p.values := by
  obtain ⟨st, -, h⟩ := Option.bind_eq_some_iff.1 h
  obtain ⟨v, -, h⟩ := Option.bind_eq_some_iff.1 h
  obtain ⟨x, hx, hi⟩ := Option.bind_eq_some_iff.1 h
  cases x with
  | invoke call =>
    cases hi
    exact mem_values hx
  | _ => cases hi

theorem lt_of_invokeOf? {i : Invoke} (h : p.invokeOf? stmt = some i) : stmt < p.stmts.size := by
  obtain ⟨st, hst, -⟩ := Option.bind_eq_some_iff.1 h
  exact (Array.getElem?_eq_some_iff.1 hst).1

/-! ## Values -/

/-- The value is one of the program, or is assigned to, read through or called on. -/
def Mentions (p : Program) (v : ValueId) : Prop :=
  v < p.values.size ∨ (∃ st ∈ p.stmts, st.defValue? = some v) ∨ ∃ x ∈ p.values, x.base? = some v

theorem mentions_finite (p : Program) : {v | p.Mentions v}.Finite :=
  (Set.finite_lt_nat _).union ((finite_filterMap p.stmts _).union (finite_filterMap p.values _))

theorem mentions_of_value? {x : Value} (h : p.value? v = some x) : p.Mentions v :=
  Or.inl (Array.getElem?_eq_some_iff.1 h).1

theorem mentions_of_isLocal (h : p.isLocal v = true) : p.Mentions v :=
  Or.inl (lt_of_isLocal h)

theorem mentions_of_localName? {name : String} (h : p.localName? v = some name) :
    p.Mentions v := by
  obtain ⟨x, hx, -⟩ := Option.bind_eq_some_iff.1 h
  exact mentions_of_value? hx

theorem mentions_of_captured? {env : ValueId} {name : String} (h : p.captured? env name = some v) :
    p.Mentions v := by
  unfold captured? at h
  split at h
  · have hname := List.find?_some h
    exact mentions_of_localName? (by simpa using hname)
  · cases h

theorem mentions_of_base? {x : Value} (h : p.value? v = some x) (hw : x.base? = some w) :
    p.Mentions w :=
  Or.inr (Or.inr ⟨x, mem_values h, hw⟩)

theorem mentions_of_defValue? (h : (p.stmt? stmt).bind Stmt.defValue? = some v) :
    p.Mentions v := by
  obtain ⟨st, hst, hv⟩ := Option.bind_eq_some_iff.1 h
  exact Or.inr (Or.inl ⟨st, mem_stmts hst, hv⟩)

theorem mentions_of_invokeOf? {i : Invoke} (h : p.invokeOf? stmt = some i)
    (hv : i.base = some v) : p.Mentions v :=
  Or.inr (Or.inr ⟨.invoke i, mem_values_of_invokeOf? h, hv⟩)

/-- The left side of an assignment. -/
theorem mentions_of_assignments {a : ValueId × ValueId} (h : a ∈ p.assignments m) :
    p.Mentions a.1 := by
  obtain ⟨s, -, hs⟩ := List.mem_filterMap.1 h
  split at hs
  · rename_i left right hkind
    cases hs
    exact mentions_of_defValue? (defValue?_of_assign hkind)
  · cases hs

theorem mentions_of_thisRef? (h : p.thisRef? m = some v) : p.Mentions v := by
  obtain ⟨a, ha, rfl⟩ := Option.map_eq_some_iff.1 h
  have hread := (List.mem_filter.1 (List.mem_of_mem_head? ha)).2
  cases hv : p.value? a.2 with
  | none => simp [hv] at hread
  | some x => exact mentions_of_value? hv

theorem mentions_of_thisLocal? (h : p.thisLocal? m = some v) : p.Mentions v := by
  unfold thisLocal? at h
  split at h
  · rename_i left right hreads
    cases h
    have hmem : (v, right) ∈ p.receiverReads m := by
      rw [hreads]
      exact List.mem_singleton_self _
    exact mentions_of_assignments (List.mem_filter.1 hmem).1
  · cases h

theorem mentions_of_params {param : Nat × ValueId} (h : param ∈ p.params m) :
    p.Mentions param.2 := by
  obtain ⟨a, -, ha⟩ := List.mem_filterMap.1 (List.mem_mergeSort.1 h)
  split at ha
  · rename_i hv
    cases ha
    exact mentions_of_value? hv
  · cases ha

theorem mentions_of_returnValues (h : v ∈ p.returnValues m) : p.Mentions v := by
  obtain ⟨s, -, hs⟩ := List.mem_filterMap.1 h
  split at hs
  · split at hs
    · rename_i hlocal
      cases hs
      exact mentions_of_isLocal hlocal
    · cases hs
  · cases hs

theorem mentions_dealias (h : p.Mentions v) : p.Mentions (p.dealias v) := by
  rcases p.dealias_eq_or_isLocal v with heq | hlocal
  · rw [heq]
    exact h
  · exact mentions_of_isLocal hlocal

/-! ## Fields -/

/-- The field is that of all elements, or some value reads or writes it. -/
def HasKey (p : Program) (key : FieldKey) : Prop :=
  key = .element ∨ ∃ x ∈ p.values, x.fieldKey? = some key

theorem hasKey_finite (p : Program) : {key | p.HasKey key}.Finite :=
  (Set.finite_singleton FieldKey.element).union (finite_filterMap p.values _)

theorem hasKey_of_value? {x : Value} {key : FieldKey} (h : p.value? v = some x)
    (hk : x.fieldKey? = some key) : p.HasKey key :=
  Or.inr ⟨x, mem_values h, hk⟩

/-! ## Methods -/

/-- The method is called, declared or referred to. -/
def NamesMethod (p : Program) (g : CallGraph) (m : MethodSig) : Prop :=
  (∃ f ∈ g.nodes, f.method = m) ∨ (∃ x ∈ p.values, x.method? = some m) ∨
    (∃ st ∈ p.stmts, st.method = m) ∨ ∃ c ∈ p.classes, m ∈ c.methods

theorem namesMethod_finite (p : Program) (g : CallGraph) : {m | p.NamesMethod g m}.Finite := by
  have hmap : ∀ {α : Type} (xs : Array α) (f : α → MethodSig), {m | ∃ x ∈ xs, f x = m}.Finite := by
    intro α xs f
    simpa using finite_filterMap xs fun x => some (f x)
  refine (hmap g.nodes _).union ((finite_filterMap p.values _).union ((hmap p.stmts _).union ?_))
  refine (List.finite_toSet (p.classes.toList.flatMap ClassDecl.methods)).subset ?_
  rintro m ⟨c, hc, hm⟩
  exact List.mem_flatMap.2 ⟨c, Array.mem_toList_iff.2 hc, hm⟩

theorem namesMethod_of_value? {x : Value} (h : p.value? v = some x) (hm : x.method? = some m) :
    p.NamesMethod g m :=
  Or.inr (Or.inl ⟨x, mem_values h, hm⟩)

theorem namesMethod_of_stmt? {st : Stmt} (h : p.stmt? stmt = some st) :
    p.NamesMethod g st.method :=
  Or.inr (Or.inr (Or.inl ⟨st, mem_stmts h, rfl⟩))

theorem namesMethod_of_findMethod? {c : ClassSig} {name : String}
    (h : p.findMethod? c name = some m) : p.NamesMethod g m := by
  obtain ⟨d, -, hd⟩ := List.exists_of_findSome?_eq_some h
  obtain ⟨decl, hdecl, hm⟩ := Option.bind_eq_some_iff.1 hd
  exact Or.inr (Or.inr (Or.inr
    ⟨decl, Array.mem_of_find?_eq_some hdecl, List.mem_of_find?_eq_some hm⟩))

/-! ## Entities -/

/-- The slots that library models keep for calls of the program. -/
inductive HasSlot (p : Program) : String → String → Prop where
  | apply {stmt : StmtId} (h : stmt < p.stmts.size) : HasSlot p "apply" s!"s{stmt}"
  | container {stmt : StmtId} (h : stmt < p.stmts.size) : HasSlot p "container" s!"s{stmt}"
  | concat {stmt : StmtId} {i : Invoke} {index : Nat} (h : p.invokeOf? stmt = some i)
      (hindex : index < i.args.length) : HasSlot p "concat" s!"s{stmt}#{index}"
  | storage {store text : String} {ty : Ty} (h : store ∈ Library.Storage.storeClasses)
      (htext : .constant ty text ∈ p.values) :
    HasSlot p "storage" (store ++ "::" ++ ModelCall.unquote text)
  | worker : HasSlot p "worker" "message"

/-- The entity stands for something that the program mentions. -/
def Names (p : Program) : Entity → Prop
  | .value v => p.Mentions v
  | .staticField field => .staticRef field ∈ p.values
  | .globalThis => True
  | .exported file name => ∃ v f, Summarize.freeLocal? p v = some f ∧ f.exported = some (file, name)
  | .sdkReturn stmt => stmt < p.stmts.size
  | .modelSlot owner key => p.HasSlot owner key
  | .objField .. | .boundFunction .. => False

theorem isLocal_of_freeLocal? {f : FreeLocal} (h : Summarize.freeLocal? p v = some f) :
    f.name = v ∧ p.isLocal v = true := by
  unfold Summarize.freeLocal? at h
  obtain ⟨decl, -, h⟩ := Option.bind_eq_some_iff.1 h
  split at h
  · rename_i hv _
    cases h
    exact ⟨rfl, by simp [isLocal, hv, Value.isLocal]⟩
  · cases h

theorem mentions_decl_of_freeLocal? {f : FreeLocal} (h : Summarize.freeLocal? p v = some f) :
    p.Mentions f.decl := by
  unfold Summarize.freeLocal? at h
  obtain ⟨decl, -, h⟩ := Option.bind_eq_some_iff.1 h
  split at h
  · rename_i hdecl
    cases h
    exact mentions_of_value? hdecl
  · cases h

/-- The text of a constant. -/
def textOf? : Value → Option String
  | .constant _ text => some text
  | _ => none

theorem hasSlot_finite (p : Program) :
    {slot : String × String | p.HasSlot slot.1 slot.2}.Finite := by
  have hstmts := Set.finite_lt_nat p.stmts.size
  have happly := hstmts.image fun stmt => ("apply", s!"s{stmt}")
  have hcontainer := hstmts.image fun stmt => ("container", s!"s{stmt}")
  -- The positions of all arguments of a call are bounded.
  have hconcat : (⋃ stmt ∈ {stmt | stmt < p.stmts.size},
      (fun index => ("concat", s!"s{stmt}#{index}")) ''
        {index | ∃ i, p.invokeOf? stmt = some i ∧ index < i.args.length}).Finite := by
    refine hstmts.biUnion fun stmt _ => Set.Finite.image _ ?_
    cases hi : p.invokeOf? stmt with
    | none => simp
    | some i => simpa using Set.finite_lt_nat i.args.length
  have htext := finite_filterMap p.values textOf?
  have hstorage := ((List.finite_toSet Library.Storage.storeClasses).prod htext).image fun x =>
    ("storage", x.1 ++ "::" ++ ModelCall.unquote x.2)
  have hworker := Set.finite_singleton ("worker", "message")
  refine (happly.union (hcontainer.union (hconcat.union (hstorage.union hworker)))).subset ?_
  rintro ⟨owner, key⟩ h
  cases h with
  | apply h => exact Or.inl ⟨_, h, rfl⟩
  | container h => exact Or.inr (Or.inl ⟨_, h, rfl⟩)
  | concat h hindex =>
    refine Or.inr (Or.inr (Or.inl ?_))
    exact Set.mem_biUnion (lt_of_invokeOf? h) ⟨_, ⟨_, h, hindex⟩, rfl⟩
  | storage h ht => exact Or.inr (Or.inr (Or.inr (Or.inl ⟨(_, _), ⟨h, _, ht, rfl⟩, rfl⟩)))
  | worker => exact Or.inr (Or.inr (Or.inr (Or.inr rfl)))

theorem names_finite (p : Program) : {e | p.Names e}.Finite := by
  have hvalue := p.mentions_finite.image Entity.value
  have hstatic := (finite_filterMap p.values fun
    | .staticRef field => some field
    | _ => none).image Entity.staticField
  have hglobal := Set.finite_singleton Entity.globalThis
  have hexported := (p.mentions_finite.image fun v =>
    (Summarize.freeLocal? p v).bind FreeLocal.exported).image fun
      | some (file, name) => Entity.exported file name
      | none => Entity.globalThis
  have hsdk := (Set.finite_lt_nat p.stmts.size).image Entity.sdkReturn
  have hslot := p.hasSlot_finite.image fun slot => Entity.modelSlot slot.1 slot.2
  refine (hvalue.union (hstatic.union (hglobal.union (hexported.union (hsdk.union hslot))))).subset
    ?_
  intro e he
  cases e with
  | value v => exact Or.inl ⟨v, he, rfl⟩
  | staticField field => exact Or.inr (Or.inl ⟨field, ⟨_, he, rfl⟩, rfl⟩)
  | globalThis => exact Or.inr (Or.inr (Or.inl rfl))
  | exported file name =>
    obtain ⟨v, f, hf, hexported⟩ := he
    refine Or.inr (Or.inr (Or.inr (Or.inl ⟨some (file, name), ⟨v, ?_, ?_⟩, rfl⟩)))
    · exact mentions_of_isLocal (isLocal_of_freeLocal? hf).2
    · dsimp only
      rw [hf]
      exact hexported
  | sdkReturn stmt => exact Or.inr (Or.inr (Or.inr (Or.inr (Or.inl ⟨stmt, he, rfl⟩))))
  | modelSlot owner key =>
    exact Or.inr (Or.inr (Or.inr (Or.inr (Or.inr ⟨(owner, key), he, rfl⟩))))
  | objField | boundFunction => exact absurd he id

/-- What a value stands for. -/
theorem names_entityOf (h : p.Mentions v) : p.Names (Build.entityOf p v) := by
  unfold Build.entityOf
  split
  · trivial
  · rename_i hv
    exact mem_values hv
  · exact h

/-! ## Calls -/

/-- The statement makes a call, and has the argument that is watched. -/
def HasSite (p : Program) (site : SiteRef) : Prop :=
  ∃ i, p.invokeOf? site.stmt = some i ∧ ∀ index, site.role = .arg index → index < i.args.length

theorem hasSite_finite (p : Program) : {site | p.HasSite site}.Finite := by
  have hroles : ∀ i : Invoke,
      {role : SiteRole | ∀ index, role = .arg index → index < i.args.length}.Finite := by
    intro i
    have harg := (Set.finite_lt_nat i.args.length).image SiteRole.arg
    refine ((Set.finite_singleton SiteRole.receiver).union
      ((Set.finite_singleton SiteRole.unknown).union harg)).subset fun role hrole => ?_
    cases role with
    | receiver => exact Or.inl rfl
    | unknown => exact Or.inr (Or.inl rfl)
    | arg index => exact Or.inr (Or.inr ⟨index, hrole index rfl, rfl⟩)
  have hsites : (⋃ stmt ∈ {stmt | stmt < p.stmts.size}, (fun role => SiteRef.mk stmt role) ''
      {role | p.HasSite ⟨stmt, role⟩}).Finite := by
    refine (Set.finite_lt_nat _).biUnion fun stmt _ => Set.Finite.image _ ?_
    cases hi : p.invokeOf? stmt with
    | none => simp [HasSite, hi]
    | some i => simpa [HasSite, hi] using hroles i
  refine hsites.subset ?_
  rintro ⟨stmt, role⟩ ⟨i, hi, hrole⟩
  exact Set.mem_biUnion (lt_of_invokeOf? hi) ⟨role, ⟨i, hi, hrole⟩, rfl⟩

/-! ## Failures -/

/-- A statement assigns to something that is no place, and this is the failure. -/
def Misassigns (p : Program) (e : Failure) : Prop :=
  ∃ stmt left right v, (p.stmt? stmt).map Stmt.kind = some (.assign left right) ∧
    p.value? left = some v ∧ v.isPlace = false ∧ e = .nonLvalue stmt v

/-- Whether everything that is assigned to is a place. -/
def assignsPlaces (p : Program) : Bool :=
  p.stmts.all fun st => match st.kind with
    | .assign left _ => (p.value? left).all Value.isPlace
    | _ => true

theorem not_misassigns (h : p.assignsPlaces = true) (e : Failure) : ¬p.Misassigns e := by
  rintro ⟨stmt, left, right, v, hst, hv, hplace, -⟩
  obtain ⟨st, hst, hkind⟩ := Option.map_eq_some_iff.1 hst
  have hall := Array.all_eq_true_iff_forall_mem.1 h st (mem_stmts hst)
  simp [hkind, hv, hplace] at hall

/-- The statement assigns to `v`, which is no place, and what it assigns is no call. -/
def Misplaces (p : Program) (stmt : StmtId) (v : Value) : Prop :=
  ∃ left right, (p.stmt? stmt).map Stmt.kind = some (.assign left right) ∧
    (p.value? right).bind Value.invoke? = none ∧ p.value? left = some v ∧ v.isPlace = false

/-- The failure of such a statement. -/
def IsMisplaced (p : Program) (e : Failure) : Prop :=
  ∃ stmt v, p.Misplaces stmt v ∧ e = .nonLvalue stmt v

theorem IsMisplaced.misassigns {e : Failure} (h : p.IsMisplaced e) : p.Misassigns e := by
  obtain ⟨stmt, v, ⟨left, right, hstmt, -, hv, hplace⟩, rfl⟩ := h
  exact ⟨stmt, left, right, v, hstmt, hv, hplace, rfl⟩

theorem IsMisplaced.ne_outOfFuel {e : Failure} (h : p.IsMisplaced e) : e ≠ .outOfFuel := by
  obtain ⟨stmt, v, -, rfl⟩ := h
  nofun

/-- No statement of the method is of that kind. -/
def IsPlaced (p : Program) (m : MethodSig) : Prop :=
  ∀ decl, p.method? m = some decl → ∀ stmt ∈ decl.stmts, ∀ v, ¬p.Misplaces stmt v

end Program

/-- The id of a call, or the one that stands for none. -/
def CallGraph.HasId (g : CallGraph) (id : CallSiteId) : Prop :=
  id = 0 ∨ (∃ s ∈ g.sites, s.id = id) ∨ ∃ s ∈ g.dynSites, s.id = id

theorem CallGraph.hasId_finite (g : CallGraph) : {id | g.HasId id}.Finite := by
  have hsites := finite_filterMap g.sites fun s => some s.id
  have hdyn := finite_filterMap g.dynSites fun s => some s.id
  simp only [Option.some.injEq] at hsites hdyn
  exact (Set.finite_singleton 0).union (hsites.union hdyn)

end PointsTo
