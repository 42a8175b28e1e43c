import PointsTo.Builder.Basic

/-!
# Summarising a method

Every statement of a body is a pointer move, a call, a return, or nothing. Accesses to one field of
one local share a reference within the method, the one that came first.

A call is looked up in the call graph. Static sites are calls of known callees; a dynamic site
counts as unknown if the program does not declare the method that it names.
-/

namespace PointsTo

/-- A summary in the making. -/
structure Summarizer where
  summary : Summary
  /-- The reference that stands for a field of a value. -/
  refs : List ((ValueId × FieldKey) × ValueId) := []

/-- Steps of summarising, which may fail. -/
abbrev Summarize := ExceptT Failure (StateM Summarizer)

namespace Summarize

def change (f : Summary → Summary) : Summarize Unit :=
  modify fun s => { s with summary := f s.summary }

/-- The reference that stands for an access to a field. -/
def canonical (base : ValueId) (key : FieldKey) (access : ValueId) : Summarize Entity := do
  match (← get).refs.lookup (base, key) with
  | some ref => return .value ref
  | none =>
    modify fun s => { s with refs := s.refs ++ [((base, key), access)] }
    return .value access

/-- The move that reads `right` into a local. -/
def reading (p : Program) (right : ValueId) : Summarize (Option (EdgeKind × Entity)) := do
  match p.value? right with
  | some (.newObject _) | some (.newArray _) | some (.functionRef _) | some .globalThis =>
    return some (.address, Build.entityOf p right)
  | some (.localVar ..) | some (.param ..) | some (.thisRef _) | some (.captured ..)
  | some (.staticRef _) =>
    return some (.copy, Build.entityOf p right)
  | some (.cast op _) => return if p.isLocal op then some (.copy, .value op) else none
  | some (.fieldRef base field) => return some (.load, ← canonical base (.ofSig field) right)
  | some (.elementRef base _) => return some (.load, ← canonical base .element right)
  | _ => return none

/-- Summarises `left = right`, where `right` is no call. -/
def assign (p : Program) (stmt : StmtId) (left right : ValueId) : Summarize Unit := do
  match p.value? left with
  | some (.localVar ..) =>
    if let some (kind, src) ← reading p right then
      change fun s => s.addEdge kind src (.value left) stmt
  | some (.fieldRef base field) =>
    if p.isLocal right then
      let dst ← canonical base (.ofSig field) left
      change fun s => s.addEdge .write (.value right) dst stmt
  | some (.elementRef base _) =>
    if p.isLocal right then
      let dst ← canonical base .element left
      change fun s => s.addEdge .write (.value right) dst stmt
  | some (.staticRef field) =>
    if p.isLocal right then
      change fun s => s.addEdge .copy (.value right) (.staticField field) stmt
    else if (p.value? right).any Value.isAllocation then
      change fun s => s.addEdge .address (Build.entityOf p right) (.staticField field) stmt
  | some (.captured ..) | none => pure ()
  | some v => throw (.nonLvalue stmt v)

/-- Whether the program declares the method that a dynamic site names. -/
def isDeclared (p : Program) (g : CallGraph) (site : DynCallSite) : Bool :=
  ((site.potential.bind g.methodOf?).bind p.method?).isSome

/-- Summarises a call. -/
def call (p : Program) (g : CallGraph) (stmt : StmtId) : Summarize Unit :=
  match g.sitesAt stmt, g.dynSiteAt? stmt with
  | [], none => pure ()
  | [], some site =>
    change fun s => if isDeclared p g site then s.addDynamicCall site else s.addUnknownCall site
  | sites, _ => change fun s => sites.foldl Summary.addStaticCall s

def stmt (p : Program) (g : CallGraph) (id : StmtId) : Summarize Unit := do
  match (p.stmt? id).map Stmt.kind with
  | some (.assign left right) =>
    if ((p.value? right).bind Value.invoke?).isSome then call p g id else assign p id left right
  | some (.invoke _) => call p g id
  | some (.ret (some v)) => if p.isLocal v then change fun s => s.addReturn v
  | _ => pure ()

/-- What a free local stands for, and how it is reached. -/
def freeLocal? (p : Program) (v : ValueId) : Option FreeLocal := do
  let decl ← p.resolveFree? v
  match p.value? v, p.value? decl with
  | some (.localVar name _ m), some (.localVar _ _ declMethod) =>
    let file := m.owner.file
    let exported := if declMethod.owner.file = file then none
      else (p.import? file name).map fun i => (i.source, i.importedName)
    some { name := v, decl, exported }
  | _, _ => none

def body (p : Program) (g : CallGraph) (m : MethodDecl) : Summarize Unit := do
  m.stmts.forM (stmt p g)
  change fun s => (m.locals.filterMap (freeLocal? p)).foldl Summary.addFree s

/-- Summarises a method, as far as it goes. A method that is not declared does nothing. -/
def method (p : Program) (g : CallGraph) (f : FuncId) (m : MethodSig) :
    Except Failure Unit × Summarizer :=
  let start : Summarizer := { summary := { func := f } }
  match p.method? m with
  | some decl => (body p g decl).run start
  | none => (.ok (), start)

end Summarize

namespace Build

/-- Makes the summary of a method unless it is there; tells whether it did. The accesses to fields
that were met are recorded even if a later statement fails. -/
def summarize (p : Program) (f : FuncId) : TryBuild Bool := do
  if ((← get).summary? f).isSome then return false
  let m ← methodOf f
  let (result, s) := Summarize.method p (← get).graph f m
  modify fun b => { b with pag := s.refs.foldl (fun g r => g.addBaseRef r.1.1 r.2) b.pag }
  match result with
  | .error e => throw e
  | .ok _ =>
    modify fun b => { b with summaries := b.summaries ++ [(f, s.summary)] }
    return true

end Build

/-! ## Methods that share what they return

A static method may keep an object in a shared place and hand out the same object each time. Such a
method is analysed in one context, since all its callers get one object. -/

namespace Summary

/-- The entity, or, for a field of the global object, the one slot of that name. -/
def sharedSlot (p : Program) (e : Entity) : Entity :=
  match e with
  | .value v =>
    match p.value? v with
    | some (.fieldRef base field) =>
      if p.holdsGlobalThis base then .modelSlot Naming.globalThis field.name else e
    | _ => e
  | _ => e

/-- Whether all contexts see the same content. -/
def isShared : Entity → Bool
  | .staticField _ => true
  | .modelSlot owner _ => owner == Naming.globalThis
  | _ => false

/-- Where an object of the method can go on, between places the method sees. -/
def flows (p : Program) (s : Summary) : List (Entity × Entity) :=
  s.edges.filterMap fun e =>
    let src := sharedSlot p e.src
    let dst := sharedSlot p e.dst
    match e.kind with
    | .copy | .interprocedural => some (src, dst)
    | .write => if isShared dst then some (src, dst) else none
    | .load => if isShared src then some (src, dst) else none
    | .address | .this => none

/-- Where the method puts its new objects. -/
def allocationTargets (p : Program) (s : Summary) : List Entity :=
  s.edges.filterMap fun e =>
    match e.kind, e.src with
    | .address, .value v =>
      match p.value? v with
      | some (.newObject _) => some (sharedSlot p e.dst)
      | _ => none
    | _, _ => none

/-- Whether one new object gets both to a shared place and to a returned local. -/
def returnsShared (p : Program) (s : Summary) : Bool :=
  (s.allocationTargets p).any fun target =>
    let reached := Reach.walk (s.flows p) [target] []
    reached.any isShared && s.returns.any fun r => reached.contains (.value r)

end Summary

namespace Build

/-- Whether a method is analysed in one context only. The first answer stays. -/
def isSingleton (p : Program) (f : FuncId) : TryBuild Bool := do
  match (← get).singletons.lookup f with
  | some known => return known
  | none =>
    let decl := ((← get).graph.methodOf? f).bind p.method?
    let answer ← if decl.any fun m => m.isStatic && m.hasBody then do
        let _ ← summarize p f
        pure (((← get).summary? f).any (Summary.returnsShared p))
      else pure false
    modify fun b => { b with singletons := b.singletons ++ [(f, answer)] }
    return answer

end Build

end PointsTo
