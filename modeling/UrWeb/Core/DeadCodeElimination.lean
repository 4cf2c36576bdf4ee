import UrWeb.Core.References

/-!
# Dead-code elimination for Core

The `Shaker`: definition maps, a marking pass from the root declarations, and
the filter. Every nested expansion marks a new id, so the number of definitions
bounds the nesting; that number is the fuel.
-/

namespace UrWeb.Core.DeadCodeElimination

open UrWeb.Core

/-- What a value id depends on: the other members of its group, and the types
and expressions to walk. -/
structure ExpressionDef where
  mutualGroupIds : List Nat
  constructorDeps : List Constructor
  expressionDeps : List Expression

structure Defs where
  constructorDefs : Nat → Option (List Constructor)
  expressionDefs : Nat → Option ExpressionDef

/-- How the walks mark an id and go on with its definition. -/
structure Visit where
  con : Nat → Marks → Marks
  exp : Nat → Marks → Marks

-- ---------------------------------------------------------------------------
-- The walks
-- ---------------------------------------------------------------------------

mutual
def collectNamedFromConstructor (v : Visit) (s : Marks) : Constructor → Marks
  | .named n => v.con n s
  | .tFun c1 c2 | .app c1 c2 | .concat c1 c2 =>
    collectNamedFromConstructor v (collectNamedFromConstructor v s c1) c2
  | .tRecord c | .proj c _ | .tCFun _ _ c | .abs _ _ c | .kAbs _ c | .tKFun _ c | .kApp c _ =>
    collectNamedFromConstructor v s c
  | .record _ fields => collectFields v s fields
  | .tuple cs => collectConstructors v s cs
  | .rel _ | .ffi _ _ | .name _ | .unit | .map _ _ => s
def collectFields (v : Visit) (s : Marks) : List (Constructor × Constructor) → Marks
  | [] => s
  | (c1, c2) :: fields =>
    collectFields v (collectNamedFromConstructor v (collectNamedFromConstructor v s c1) c2) fields
def collectConstructors (v : Visit) (s : Marks) : List Constructor → Marks
  | [] => s
  | c :: cs => collectConstructors v (collectNamedFromConstructor v s c) cs
end

/-- The argument type of a foreign constructor. -/
def collectPatternConstructor (v : Visit) (s : Marks) : PatternConstructor → Marks
  | .ffi _ _ _ _ (some c) _ => collectNamedFromConstructor v s c
  | _ => s

mutual
def collectNamedFromPattern (v : Visit) (s : Marks) : Pattern → Marks
  | .var _ t => collectNamedFromConstructor v s t
  | .prim _ => s
  | .constructor _ pc args sub =>
    collectSubPattern v (collectConstructors v (collectPatternConstructor v s pc) args) sub
  | .record fields => collectPatternFields v s fields
def collectSubPattern (v : Visit) (s : Marks) : Option Pattern → Marks
  | none => s
  | some p => collectNamedFromPattern v s p
def collectPatternFields (v : Visit) (s : Marks) :
    List (String × Pattern × Constructor) → Marks
  | [] => s
  | (_, p, t) :: fields =>
    collectPatternFields v (collectNamedFromConstructor v (collectNamedFromPattern v s p) t) fields
end

mutual
/-- The constructor of a built value is not looked at, the one of a pattern is. -/
def collectNamedFromExpression (v : Visit) (s : Marks) : Expression → Marks
  | .named n => v.exp n s
  | .serverCall n args result _ =>
    collectNamedFromConstructor v (collectExpressions v (v.exp n s) args) result
  | .prim _ | .rel _ | .ffi _ _ => s
  | .constructor _ _ args payload => collectPayload v (collectConstructors v s args) payload
  | .ffiApp _ _ args => collectArgs v s args
  | .app e1 e2 => collectNamedFromExpression v (collectNamedFromExpression v s e1) e2
  | .abs _ dom ran body =>
    collectNamedFromExpression v
      (collectNamedFromConstructor v (collectNamedFromConstructor v s dom) ran) body
  | .cApp e c => collectNamedFromConstructor v (collectNamedFromExpression v s e) c
  | .cAbs _ _ e | .kAbs _ e | .kApp e _ | .write e => collectNamedFromExpression v s e
  | .record fields => collectExpressionFields v s fields
  | .field e c info | .cut e c info =>
    let s := collectNamedFromConstructor v (collectNamedFromExpression v s e) c
    collectNamedFromConstructor v (collectNamedFromConstructor v s info.field) info.rest
  | .concat e1 c1 e2 c2 =>
    let s := collectNamedFromConstructor v (collectNamedFromExpression v s e1) c1
    collectNamedFromConstructor v (collectNamedFromExpression v s e2) c2
  | .cutMulti e c info =>
    let s := collectNamedFromConstructor v (collectNamedFromExpression v s e) c
    collectNamedFromConstructor v s info.rest
  | .case disc arms info =>
    let s := collectArms v (collectNamedFromExpression v s disc) arms
    collectNamedFromConstructor v (collectNamedFromConstructor v s info.disc) info.result
  | .closure _ captured => collectExpressions v s captured
  | .letIn _ t e1 e2 =>
    collectNamedFromExpression v
      (collectNamedFromExpression v (collectNamedFromConstructor v s t) e1) e2
def collectPayload (v : Visit) (s : Marks) : Option Expression → Marks
  | none => s
  | some e => collectNamedFromExpression v s e
def collectArgs (v : Visit) (s : Marks) : List (Expression × Constructor) → Marks
  | [] => s
  | (e, t) :: args =>
    collectArgs v (collectNamedFromConstructor v (collectNamedFromExpression v s e) t) args
def collectExpressionFields (v : Visit) (s : Marks) :
    List (Constructor × Expression × Constructor) → Marks
  | [] => s
  | (c, e, t) :: fields =>
    let s := collectNamedFromExpression v (collectNamedFromConstructor v s c) e
    collectExpressionFields v (collectNamedFromConstructor v s t) fields
def collectArms (v : Visit) (s : Marks) : List (Pattern × Expression) → Marks
  | [] => s
  | (p, e) :: arms =>
    collectArms v (collectNamedFromExpression v (collectNamedFromPattern v s p) e) arms
def collectExpressions (v : Visit) (s : Marks) : List Expression → Marks
  | [] => s
  | e :: es => collectExpressions v (collectNamedFromExpression v s e) es
end

def markConstructorUsed (defs : Defs) : Nat → Nat → Marks → Marks
  | 0, n, s => s.markCon n
  | fuel + 1, n, s =>
    if n ∈ s.con then s
    else
      let s := s.markCon n
      match defs.constructorDefs n with
      | some deps => collectConstructors ⟨markConstructorUsed defs fuel, fun _ s => s⟩ s deps
      | none => s

def markExpressionUsed (defs : Defs) (conFuel : Nat) : Nat → Nat → Marks → Marks
  | 0, n, s => s.markExp n
  | fuel + 1, n, s =>
    if n ∈ s.exp then s
    else
      let v : Visit := ⟨markConstructorUsed defs conFuel, markExpressionUsed defs conFuel fuel⟩
      let s := s.markExp n
      match defs.expressionDefs n with
      | some d =>
        let s := collectExpressions v (collectConstructors v s d.constructorDeps) d.expressionDeps
        d.mutualGroupIds.foldl (fun s id => v.exp id s) s
      | none => s

-- ---------------------------------------------------------------------------
-- Definition maps
-- ---------------------------------------------------------------------------

def mergeExpressionDef (existing incoming : ExpressionDef) : ExpressionDef where
  mutualGroupIds := incoming.mutualGroupIds.foldl
    (fun ids id => if id ∈ ids then ids else ids ++ [id]) existing.mutualGroupIds
  constructorDeps := existing.constructorDeps ++ incoming.constructorDeps
  expressionDeps := existing.expressionDeps ++ incoming.expressionDeps

def insertExpressionDef (defs : Nat → Option ExpressionDef) (id : Nat) (d : ExpressionDef) :
    Nat → Option ExpressionDef :=
  Function.update defs id <| some <| match defs id with
    | some existing => mergeExpressionDef existing d
    | none => d

/-- The constructor ids a declaration defines, with what each depends on. -/
def constructorEntries : Declaration → List (Nat × List Constructor)
  | .constructor _ id _ body => [(id, [body])]
  | .datatype dts => dts.map fun dt => (dt.id, dt.payloads)
  | _ => []

/-- The value ids a declaration defines, with what each depends on. -/
def expressionEntries : Declaration → List (Nat × ExpressionDef)
  | .val vi => [(vi.id, ⟨[], [vi.t], [vi.body]⟩)]
  | .valRec vis => vis.map fun vi => (vi.id, ⟨vis.map ValBinding.id, [vi.t], [vi.body]⟩)
  | .table td => [(td.id, ⟨[], [td.con, td.pkCon, td.uniqueCon], [td.exp, td.pkExp]⟩)]
  | .sequence _ id _ | .style _ id _ => [(id, ⟨[], [], []⟩)]
  | .view _ id _ e c => [(id, ⟨[], [c], [e]⟩)]
  | .cookie _ id t _ => [(id, ⟨[], [t], []⟩)]
  | _ => []

/-- A later definition of a constructor id replaces an earlier one; definitions
of one value id are merged. -/
def buildDefinitionMaps (file : File) : Defs where
  constructorDefs := (file.flatMap constructorEntries).foldl
    (fun m e => Function.update m e.1 (some e.2)) fun _ => none
  expressionDefs := (file.flatMap expressionEntries).foldl
    (fun m e => insertExpressionDef m e.1 e.2) fun _ => none

def shaker (file : File) : Visit :=
  let defs := buildDefinitionMaps file
  let conFuel := (file.flatMap constructorEntries).length
  ⟨markConstructorUsed defs conFuel,
    markExpressionUsed defs conFuel (file.flatMap expressionEntries).length⟩

-- ---------------------------------------------------------------------------
-- The pass
-- ---------------------------------------------------------------------------

def seedRoot (v : Visit) (sliceForDb : Bool) (s : Marks) : Declaration → Marks
  | .export _ id _ | .onError id => if sliceForDb then s else v.exp id s
  | .table td =>
    let s := collectConstructors v s [td.con, td.pkCon, td.uniqueCon]
    collectExpressions v s [td.exp, td.pkExp]
  | .view _ _ _ e c => collectNamedFromExpression v (collectNamedFromConstructor v s c) e
  | .index e1 e2 => collectExpressions v s [e1, e2]
  | .task e1 e2 => if sliceForDb then s else collectExpressions v s [e1, e2]
  | .policy e => if sliceForDb then s else collectNamedFromExpression v s e
  | _ => s

def usedIds (file : File) (sliceForDb : Bool) : Marks :=
  file.foldl (seedRoot (shaker file) sliceForDb) .empty

def shouldKeepDeclaration (s : Marks) (sliceForDb : Bool) : Declaration → Bool
  | .constructor _ id _ _ => id ∈ s.con
  | .datatype dts => dts.any fun dt => dt.id ∈ s.con
  | .val vi => vi.id ∈ s.exp
  | .valRec vis => vis.any fun vi => vi.id ∈ s.exp
  | .view _ _ _ _ _ | .index _ _ | .sequence _ _ _ | .table _ => true
  | .export _ _ _ | .database _ | .cookie _ _ _ _ | .style _ _ _ | .task _ _ | .policy _
  | .onError _ => !sliceForDb

def shakeWithOptions (file : File) (sliceForDb : Bool) : File :=
  file.filter (shouldKeepDeclaration (usedIds file sliceForDb) sliceForDb)

def shake (file : File) : File := shakeWithOptions file false

def shakeSlicingForDb (file : File) : File := shakeWithOptions file true

end UrWeb.Core.DeadCodeElimination
