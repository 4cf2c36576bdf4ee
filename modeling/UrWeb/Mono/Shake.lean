import UrWeb.Mono.References

/-!
# Dead-code elimination for Mono

The marking pass of `mono_shake`: seed from the root declarations, expand what
was only seeded, pull in the members of recursive groups, and keep the
declarations with a marked id. Every nested expansion marks a new id, so the
number of definitions bounds the nesting; that number is the fuel.
-/

namespace UrWeb.Mono.Shake

open UrWeb.Mono

/-- The two mark sets. -/
abbrev Free := Marks

/-- Constructors by datatype id, and type and body by value id. -/
structure Defs where
  cdef : Nat → Option (List (String × Nat × Option Typ))
  edef : Nat → Option (Typ × Exp)

/-- How the walks mark an id and go on with its definition. -/
structure Visit where
  con : Nat → Free → Free
  exp : Nat → Free → Free

-- ---------------------------------------------------------------------------
-- The walks
-- ---------------------------------------------------------------------------

mutual
def shakeTyp (v : Visit) (s : Free) : Typ → Free
  | .datatype n => v.con n s
  | .func d r => shakeTyp v (shakeTyp v s d) r
  | .record xts => shakeFields v s xts
  | .option t => shakeTyp v s t
  | .list t => shakeTyp v s t
  | .signal t => shakeTyp v s t
  | .transaction t => shakeTyp v s t
  | .ffi _ _ => s
  | .source => s
def shakeFields (v : Visit) (s : Free) : List (String × Typ) → Free
  | [] => s
  | (_, t) :: xts => shakeFields v (shakeTyp v s t) xts
end

/-- The argument type of a foreign constructor. -/
def shakePatCon (v : Visit) (s : Free) : PatCon → Free
  | .ffi _ _ _ (some t) => shakeTyp v s t
  | _ => s

mutual
def shakePat (v : Visit) (s : Free) : Pat → Free
  | .var _ t => shakeTyp v s t
  | .prim _ => s
  | .con _ pc inner => shakePatArg v (shakePatCon v s pc) inner
  | .record xpts => shakePatFields v s xpts
  | .none t => shakeTyp v s t
  | .some t inner => shakePat v (shakeTyp v s t) inner
def shakePatArg (v : Visit) (s : Free) : Option Pat → Free
  | none => s
  | some p => shakePat v s p
def shakePatFields (v : Visit) (s : Free) : List (String × Pat × Typ) → Free
  | [] => s
  | (_, p, t) :: xpts => shakePatFields v (shakeTyp v (shakePat v s p) t) xpts
end

mutual
def shakeExp (v : Visit) (s : Free) : Exp → Free
  | .named n => v.exp n s
  | .prim _ | .rel _ | .ffi _ _ => s
  | .con _ pc arg => shakeExpOpt v (shakePatCon v s pc) arg
  | .none t => shakeTyp v s t
  | .some t inner => shakeExp v (shakeTyp v s t) inner
  | .ffiApp _ _ args => shakeArgs v s args
  | .app e1 e2 | .binop _ _ e1 e2 | .strcat e1 e2 | .seq e1 e2 | .signalBind e1 e2
  | .setval e1 e2 => shakeExp v (shakeExp v s e1) e2
  | .abs _ dom ran body => shakeExp v (shakeTyp v (shakeTyp v s dom) ran) body
  | .unop _ e | .field e _ | .write e | .signalReturn e | .signalSource e | .sleep e | .spawn e
  | .nextval e | .dml e _ => shakeExp v s e
  | .record xets => shakeExpFields v s xets
  | .case disc arms info =>
    shakeTyp v (shakeTyp v (shakeArms v (shakeExp v s disc) arms) info.disc) info.result
  | .error e t | .redirect e t | .uurlify e t _ => shakeTyp v (shakeExp v s e) t
  | .returnBlob blob mimeType t => shakeTyp v (shakeExp v (shakeExpOpt v s blob) mimeType) t
  | .letIn _ t e1 e2 => shakeExp v (shakeExp v (shakeTyp v s t) e1) e2
  | .closure _ envs => shakeExps v s envs
  | .query qm query body initial =>
    let s := shakeFields v s qm.exps
    let s := qm.tables.foldl (fun s xxts => shakeFields v s xxts.2) s
    let s := shakeTyp v s qm.state
    shakeExp v (shakeExp v (shakeExp v s query) body) initial
  | .javaScript (.source t) e => shakeExp v (shakeTyp v s t) e
  | .javaScript _ e => shakeExp v s e
  | .serverCall e t _ _ | .recv e t => shakeTyp v (shakeExp v s e) t
def shakeExpOpt (v : Visit) (s : Free) : Option Exp → Free
  | none => s
  | some e => shakeExp v s e
def shakeArgs (v : Visit) (s : Free) : List (Exp × Typ) → Free
  | [] => s
  | (e, t) :: args => shakeArgs v (shakeTyp v (shakeExp v s e) t) args
def shakeExpFields (v : Visit) (s : Free) : List (String × Exp × Typ) → Free
  | [] => s
  | (_, e, t) :: xets => shakeExpFields v (shakeTyp v (shakeExp v s e) t) xets
def shakeArms (v : Visit) (s : Free) : List (Pat × Exp) → Free
  | [] => s
  | (p, e) :: arms => shakeArms v (shakeExp v (shakePat v s p) e) arms
def shakeExps (v : Visit) (s : Free) : List Exp → Free
  | [] => s
  | e :: es => shakeExps v (shakeExp v s e) es
end

/-- The payload types of a constructor list. -/
def shakeConstrs (v : Visit) (s : Free) (xncs : List (String × Nat × Option Typ)) : Free :=
  xncs.foldl (fun s xnc => match xnc.2.2 with
    | some t => shakeTyp v s t
    | none => s) s

/-- The datatype arm of `shake_typ`: mark, then walk the payload types. -/
def visitCon (defs : Defs) : Nat → Nat → Free → Free
  | 0, n, s => s.markCon n
  | fuel + 1, n, s =>
    if n ∈ s.con then s
    else
      let s := s.markCon n
      match defs.cdef n with
      | some xncs => shakeConstrs ⟨visitCon defs fuel, fun _ s => s⟩ s xncs
      | none => s

/-- The name arm of `shake_exp`: mark, then walk the type and the body. -/
def visitExp (defs : Defs) (conFuel : Nat) : Nat → Nat → Free → Free
  | 0, n, s => s.markExp n
  | fuel + 1, n, s =>
    if n ∈ s.exp then s
    else
      let v : Visit := ⟨visitCon defs conFuel, visitExp defs conFuel fuel⟩
      let s := s.markExp n
      match defs.edef n with
      | some (t, body) => shakeExp v (shakeTyp v s t) body
      | none => s

-- ---------------------------------------------------------------------------
-- Definition maps
-- ---------------------------------------------------------------------------

def datatypeDecls (decls : List Decl) : List DatatypeDecl :=
  decls.flatMap fun
    | .datatype dts => dts
    | _ => []

def valBindings (decls : List Decl) : List ValBinding :=
  decls.flatMap fun
    | .val vi => [vi]
    | .valRec vis => vis
    | _ => []

/-- A later definition of an id replaces an earlier one, as hash map insertion does. -/
def buildDefs (decls : List Decl) : Defs where
  cdef := (datatypeDecls decls).foldl (fun m dt => Function.update m dt.id (some dt.constrs))
    fun _ => none
  edef := (valBindings decls).foldl (fun m vi => Function.update m vi.n (some (vi.t, vi.e)))
    fun _ => none

def visitor (decls : List Decl) : Visit :=
  let defs := buildDefs decls
  let conFuel := (datatypeDecls decls).length
  ⟨visitCon defs conFuel, visitExp defs conFuel (valBindings decls).length⟩

-- ---------------------------------------------------------------------------
-- Seeding and expansion
-- ---------------------------------------------------------------------------

/-- The order in which a hash set is walked. It is the runtime's choice, so the
pass is stated for every order. -/
structure HashOrder where
  walk : Finset Nat → List Nat
  mem_walk : n ∈ walk s ↔ n ∈ s

def HashOrder.sorted : HashOrder := ⟨ascending, mem_ascending⟩

def seedDecl (v : Visit) (s : Free) : Decl → Free
  | .export _ _ n _ _ _ => s.markExp n
  | .database _ expunge initial _ => (s.markExp expunge).markExp initial
  | .task e1 e2 => shakeExp v (shakeExp v s e1) e2
  | .table _ xts e1 e2 => shakeExp v (shakeExp v (shakeFields v s xts) e1) e2
  | .view _ xts e => shakeExp v (shakeFields v s xts) e
  | .policy pol => shakeExp v s pol.exp
  | .onError n => s.markExp n
  | _ => s

def expandCons (order : HashOrder) (defs : Defs) (v : Visit) (s : Free) : Free :=
  (order.walk s.con).foldl (fun s n => match defs.cdef n with
    | some xncs => shakeConstrs v s xncs
    | none => s) s

def expandExps (order : HashOrder) (defs : Defs) (v : Visit) (s : Free) : Free :=
  (order.walk s.exp).foldl (fun s n => match defs.edef n with
    | some (t, body) => shakeExp v (shakeTyp v s t) body
    | none => s) s

-- ---------------------------------------------------------------------------
-- Recursive groups
-- ---------------------------------------------------------------------------

/-- One member of a reachable group; the flag says that something was marked. -/
def pullMember (v : Visit) (s : Free × Bool) (vi : ValBinding) : Free × Bool :=
  if vi.n ∈ s.1.exp then s
  else (shakeExp v (s.1.markExp vi.n) vi.e, true)

def pullGroup (v : Visit) (s : Free × Bool) : Decl → Free × Bool
  | .valRec vis =>
    if vis.any fun vi => vi.n ∈ s.1.exp then vis.foldl (pullMember v) s else s
  | _ => s

def maxShakeValrecIterations : Nat := 10000

/-- Passes over the groups until nothing changes, at most `fuel` of them. -/
def pullGroups (v : Visit) (decls : List Decl) : Nat → Free → Free
  | 0, s => s
  | fuel + 1, s =>
    let r := decls.foldl (pullGroup v) (s, false)
    if r.2 then pullGroups v decls fuel r.1 else r.1

-- ---------------------------------------------------------------------------
-- The pass
-- ---------------------------------------------------------------------------

def marks (order : HashOrder) (decls : List Decl) : Free :=
  let defs := buildDefs decls
  let v := visitor decls
  let s := decls.foldl (seedDecl v) .empty
  let s := expandExps order defs v (expandCons order defs v s)
  pullGroups v decls maxShakeValrecIterations s

def keep (s : Free) : Decl → Bool
  | .datatype dts => dts.any fun dt => dt.id ∈ s.con
  | .val vi => vi.n ∈ s.exp
  | .valRec vis => vis.any fun vi => vi.n ∈ s.exp
  | _ => true

def shake (order : HashOrder) (file : File) : File :=
  (file.1.filter (keep (marks order file.1)), file.2)

end UrWeb.Mono.Shake
