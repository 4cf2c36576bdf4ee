import Mathlib.Data.Option.Basic
import UrWeb.Core.Syntax

/-!
# Local reduction

Beta reduction and simple algebraic simplification inside a body, without
unfolding global names. The environment says what is known about each variable;
it is a stack for values and for types at once.
-/

namespace UrWeb.Core.LocalReduction

inductive EnvItem where
  | unknown
  | known (e : Expression)
  | unknownC
  | knownC (c : Constructor)
  /-- Type and value binders that lie between what follows and the result. -/
  | lift (lc le : Nat)

abbrev Environment := List EnvItem

def EnvItem.isKnown : EnvItem → Bool
  | .known _ | .knownC _ => true
  | _ => false

/-- Without the items whose values are known. -/
def deKnown (env : Environment) : Environment := env.filter fun item => !item.isKnown

inductive MatchResult where
  | yes (env : Environment)
  | no
  | maybe

-- ---------------------------------------------------------------------------
-- Shifting
-- ---------------------------------------------------------------------------

def shiftIndex (n cutoff : Nat) (delta : Int) : Nat :=
  if cutoff ≤ n then ((n : Int) + delta).toNat else n

section
variable (delta : Int)

mutual
def shiftCon : Constructor → Nat → Constructor
  | .rel n, cutoff => .rel (shiftIndex n cutoff delta)
  | .tFun c1 c2, cutoff => .tFun (shiftCon c1 cutoff) (shiftCon c2 cutoff)
  | .tCFun x k c, cutoff => .tCFun x k (shiftCon c (cutoff + 1))
  | .tKFun x c, cutoff => .tKFun x (shiftCon c cutoff)
  | .tRecord c, cutoff => .tRecord (shiftCon c cutoff)
  | .named n, _ => .named n
  | .ffi m x, _ => .ffi m x
  | .app c1 c2, cutoff => .app (shiftCon c1 cutoff) (shiftCon c2 cutoff)
  | .abs x k c, cutoff => .abs x k (shiftCon c (cutoff + 1))
  | .kAbs x c, cutoff => .kAbs x (shiftCon c cutoff)
  | .kApp c k, cutoff => .kApp (shiftCon c cutoff) k
  | .name s, _ => .name s
  | .record k fields, cutoff => .record k (shiftConFields fields cutoff)
  | .concat c1 c2, cutoff => .concat (shiftCon c1 cutoff) (shiftCon c2 cutoff)
  | .map k1 k2, _ => .map k1 k2
  | .unit, _ => .unit
  | .tuple cs, cutoff => .tuple (shiftConList cs cutoff)
  | .proj c n, cutoff => .proj (shiftCon c cutoff) n
def shiftConFields : List (Constructor × Constructor) → Nat → List (Constructor × Constructor)
  | [], _ => []
  | (c1, c2) :: fields, cutoff =>
    (shiftCon c1 cutoff, shiftCon c2 cutoff) :: shiftConFields fields cutoff
def shiftConList : List Constructor → Nat → List Constructor
  | [], _ => []
  | c :: cs, cutoff => shiftCon c cutoff :: shiftConList cs cutoff
end

/-- The argument's type is in the scope of the datatype's parameters. -/
def shiftPatCon (cutoff : Nat) : PatternConstructor → PatternConstructor
  | .var n => .var n
  | .ffi m datatyp params con arg kind =>
    .ffi m datatyp params con (arg.map fun c => shiftCon delta c (cutoff + params.length)) kind

mutual
def shiftPat (cutoff : Nat) : Pattern → Pattern
  | .var x t => .var x (shiftCon delta t cutoff)
  | .prim p => .prim p
  | .constructor dk pc cs sub =>
    .constructor dk (shiftPatCon delta cutoff pc) (cs.map fun c => shiftCon delta c cutoff)
      (shiftSubPat cutoff sub)
  | .record fields => .record (shiftPatFields cutoff fields)
def shiftSubPat (cutoff : Nat) : Option Pattern → Option Pattern
  | none => none
  | some p => some (shiftPat cutoff p)
def shiftPatFields (cutoff : Nat) :
    List (String × Pattern × Constructor) → List (String × Pattern × Constructor)
  | [] => []
  | (x, p, t) :: fields => (x, shiftPat cutoff p, shiftCon delta t cutoff) :: shiftPatFields cutoff fields
end

end

mutual
/-- How many variables a pattern binds. -/
def patBindsN : Pattern → Nat
  | .var _ _ => 1
  | .prim _ => 0
  | .constructor _ _ _ sub => subBindsN sub
  | .record fields => fieldsBindN fields
def subBindsN : Option Pattern → Nat
  | none => 0
  | some p => patBindsN p
def fieldsBindN : List (String × Pattern × Constructor) → Nat
  | [] => 0
  | (_, p, _) :: fields => patBindsN p + fieldsBindN fields
end

section
variable (deltaE deltaC : Int)

mutual
def shiftExp : Expression → (cutoffE cutoffC : Nat) → Expression
  | .prim p, _, _ => .prim p
  | .rel n, cutE, _ => .rel (shiftIndex n cutE deltaE)
  | .named n, _, _ => .named n
  | .constructor dk pc cs payload, cutE, cutC =>
    .constructor dk (shiftPatCon deltaC cutC pc) (cs.map fun c => shiftCon deltaC c cutC)
      (shiftPayload payload cutE cutC)
  | .ffi m x, _, _ => .ffi m x
  | .ffiApp m x args, cutE, cutC => .ffiApp m x (shiftArgs args cutE cutC)
  | .app e1 e2, cutE, cutC => .app (shiftExp e1 cutE cutC) (shiftExp e2 cutE cutC)
  | .abs x dom ran e, cutE, cutC =>
    .abs x (shiftCon deltaC dom cutC) (shiftCon deltaC ran cutC) (shiftExp e (cutE + 1) cutC)
  | .cApp e c, cutE, cutC => .cApp (shiftExp e cutE cutC) (shiftCon deltaC c cutC)
  | .cAbs x k e, cutE, cutC => .cAbs x k (shiftExp e cutE (cutC + 1))
  | .kApp e k, cutE, cutC => .kApp (shiftExp e cutE cutC) k
  | .kAbs x e, cutE, cutC => .kAbs x (shiftExp e cutE cutC)
  | .record fields, cutE, cutC => .record (shiftFields fields cutE cutC)
  | .field e c info, cutE, cutC =>
    .field (shiftExp e cutE cutC) (shiftCon deltaC c cutC)
      ⟨shiftCon deltaC info.field cutC, shiftCon deltaC info.rest cutC⟩
  | .concat e1 c1 e2 c2, cutE, cutC =>
    .concat (shiftExp e1 cutE cutC) (shiftCon deltaC c1 cutC) (shiftExp e2 cutE cutC)
      (shiftCon deltaC c2 cutC)
  | .cut e c info, cutE, cutC =>
    .cut (shiftExp e cutE cutC) (shiftCon deltaC c cutC)
      ⟨shiftCon deltaC info.field cutC, shiftCon deltaC info.rest cutC⟩
  | .cutMulti e c info, cutE, cutC =>
    .cutMulti (shiftExp e cutE cutC) (shiftCon deltaC c cutC) ⟨shiftCon deltaC info.rest cutC⟩
  | .case disc arms info, cutE, cutC =>
    .case (shiftExp disc cutE cutC) (shiftArms arms cutE cutC)
      ⟨shiftCon deltaC info.disc cutC, shiftCon deltaC info.result cutC⟩
  | .write e, cutE, cutC => .write (shiftExp e cutE cutC)
  | .closure n es, cutE, cutC => .closure n (shiftList es cutE cutC)
  | .letIn x t e1 e2, cutE, cutC =>
    .letIn x (shiftCon deltaC t cutC) (shiftExp e1 cutE cutC) (shiftExp e2 (cutE + 1) cutC)
  | .serverCall n es t fm, cutE, cutC =>
    .serverCall n (shiftList es cutE cutC) (shiftCon deltaC t cutC) fm
def shiftPayload : Option Expression → (cutoffE cutoffC : Nat) → Option Expression
  | none, _, _ => none
  | some e, cutE, cutC => some (shiftExp e cutE cutC)
def shiftArgs :
    List (Expression × Constructor) → (cutoffE cutoffC : Nat) → List (Expression × Constructor)
  | [], _, _ => []
  | (e, t) :: args, cutE, cutC =>
    (shiftExp e cutE cutC, shiftCon deltaC t cutC) :: shiftArgs args cutE cutC
def shiftFields : List (Constructor × Expression × Constructor) → (cutoffE cutoffC : Nat) →
    List (Constructor × Expression × Constructor)
  | [], _, _ => []
  | (c, e, t) :: fields, cutE, cutC =>
    (shiftCon deltaC c cutC, shiftExp e cutE cutC, shiftCon deltaC t cutC) ::
      shiftFields fields cutE cutC
def shiftArms : List (Pattern × Expression) → (cutoffE cutoffC : Nat) → List (Pattern × Expression)
  | [], _, _ => []
  | (p, e) :: arms, cutE, cutC =>
    (shiftPat deltaC cutC p, shiftExp e (cutE + patBindsN p) cutC) :: shiftArms arms cutE cutC
def shiftList : List Expression → (cutoffE cutoffC : Nat) → List Expression
  | [], _, _ => []
  | e :: es, cutE, cutC => shiftExp e cutE cutC :: shiftList es cutE cutC
end

end

-- ---------------------------------------------------------------------------
-- Constructors
-- ---------------------------------------------------------------------------

/-- A step after which something that has been simplified is read again. -/
inductive Step where
  | reread (env : Environment) (e : Expression)
  | rereadCon (env : Environment) (c : Constructor)
  /-- An argument is dropped. -/
  | drop

section
-- which steps may be taken; the code takes them all
variable (allowed : Step → Bool)

/-- Look up constructor index `nOrig`, of which `nRem` binders remain to be passed. -/
def findCon (simplify : Environment → Constructor → Option Constructor) :
    Environment → (nOrig nRem : Nat) → (nudge : Int) → (liftC : Nat) → Option Constructor
  | [], nOrig, _, nudge, _ => some (.rel ((nOrig : Int) + nudge).toNat)
  | .unknown :: rest, nOrig, nRem, nudge, liftC
  | .known _ :: rest, nOrig, nRem, nudge, liftC => findCon simplify rest nOrig nRem nudge liftC
  | .lift lc _ :: rest, nOrig, nRem, nudge, liftC =>
    findCon simplify rest nOrig nRem (nudge + lc) (liftC + lc)
  | .unknownC :: rest, nOrig, nRem, nudge, liftC =>
    if nRem = 0 then some (.rel ((nOrig : Int) + nudge).toNat)
    else findCon simplify rest nOrig (nRem - 1) nudge (liftC + 1)
  | .knownC c :: rest, nOrig, nRem, nudge, liftC =>
    if nRem = 0 then simplify (.lift liftC 0 :: rest) c
    else findCon simplify rest nOrig (nRem - 1) (nudge - 1) liftC

/-- Apply `Map dom ran f` to the first field of a record, and the map to the rest. -/
def expandMap (k1 ran : Kind) (f : Constructor) (domK : Kind) (x c : Constructor)
    (rest : List (Constructor × Constructor)) : Constructor :=
  .concat (.record ran [(x, .app f c)]) (.app (.app (.map k1 ran) f) (.record domK rest))

/-- `none` is a panic, or a computation that has not ended within `fuel` calls. -/
def simplifyCon : Nat → Environment → Constructor → Option Constructor
  | 0, _, _ => none
  | fuel + 1, env, con =>
    match con with
    | .tFun c1 c2 => do
      let c1 ← simplifyCon fuel env c1
      let c2 ← simplifyCon fuel env c2
      some (.tFun c1 c2)
    | .tCFun x k c => do
      let c ← simplifyCon fuel (.unknownC :: env) c
      some (.tCFun x k c)
    | .tKFun x c => do
      let c ← simplifyCon fuel env c
      some (.tKFun x c)
    | .tRecord c => do
      let c ← simplifyCon fuel env c
      some (.tRecord c)
    | .rel n => findCon (simplifyCon fuel) env n n 0 0
    | .named _ | .ffi _ _ | .name _ | .unit | .map _ _ => some con
    | .app c1 c2 => do
      let f ← simplifyCon fuel env c1
      let arg ← simplifyCon fuel env c2
      match f with
      | .abs _ _ body =>
        guard (allowed (.rereadCon (.unknownC :: deKnown env) body))
        guard (allowed (.rereadCon (deKnown env) arg))
        simplifyCon fuel (.knownC arg :: deKnown env) body
      | .app (.map k1 ran) mapper =>
        match arg with
        | .unit => some (.record ran [])
        | .record _ [] => some (.record ran [])
        | .record domK ((x, c) :: rest) =>
          guard (allowed (.rereadCon (deKnown env) (expandMap k1 ran mapper domK x c rest)))
          simplifyCon fuel (deKnown env) (expandMap k1 ran mapper domK x c rest)
        | arg => some (.app f arg)
      | f => some (.app f arg)
    | .abs x k c => do
      let c ← simplifyCon fuel (.unknownC :: env) c
      some (.abs x k c)
    | .kAbs x c => do
      let c ← simplifyCon fuel env c
      some (.kAbs x c)
    | .kApp c k => do
      let c ← simplifyCon fuel env c
      match c with
      | .kAbs _ body =>
        guard (allowed (.rereadCon (deKnown env) body))
        simplifyCon fuel (deKnown env) body
      | c => some (.kApp c k)
    | .record k fields => do
      let fields ← fields.mapM fun f => do
        let x ← simplifyCon fuel env f.1
        let c ← simplifyCon fuel env f.2
        some (x, c)
      some (.record k fields)
    | .concat c1 c2 => do
      let c1 ← simplifyCon fuel env c1
      let c2 ← simplifyCon fuel env c2
      match c1, c2 with
      | .record k fields1, .record _ fields2 => some (.record k (fields1 ++ fields2))
      | .record _ [], c2 => some c2
      | c1, .record _ [] => some c1
      | c1, c2 => some (.concat c1 c2)
    | .tuple cs => do
      let cs ← cs.mapM (simplifyCon fuel env)
      some (.tuple cs)
    | .proj c n => do
      let c ← simplifyCon fuel env c
      match c with
      | .tuple cs => if n = 0 then none else cs[n - 1]?
      | c => some (.proj c n)

-- ---------------------------------------------------------------------------
-- Patterns
-- ---------------------------------------------------------------------------

def simplifyPatCon (fuel : Nat) (env : Environment) : PatternConstructor → Option PatternConstructor
  | .var n => some (.var n)
  | .ffi m datatyp params con arg kind => do
    let arg ← arg.mapM (simplifyCon allowed fuel (List.replicate params.length .unknownC ++ env))
    some (.ffi m datatyp params con arg kind)

mutual
def simplifyPat (fuel : Nat) (env : Environment) : Pattern → Option Pattern
  | .var x t => do
    let t ← simplifyCon allowed fuel env t
    some (.var x t)
  | .prim p => some (.prim p)
  | .constructor dk pc cs sub => do
    let pc ← simplifyPatCon allowed fuel env pc
    let cs ← cs.mapM (simplifyCon allowed fuel env)
    let sub ← simplifySubPat fuel env sub
    some (.constructor dk pc cs sub)
  | .record fields => do
    let fields ← simplifyPatFields fuel env fields
    some (.record fields)
def simplifySubPat (fuel : Nat) (env : Environment) : Option Pattern → Option (Option Pattern)
  | none => some none
  | some p => do
    let p ← simplifyPat fuel env p
    some (some p)
def simplifyPatFields (fuel : Nat) (env : Environment) :
    List (String × Pattern × Constructor) → Option (List (String × Pattern × Constructor))
  | [] => some []
  | (x, p, t) :: fields => do
    let p ← simplifyPat fuel env p
    let t ← simplifyCon allowed fuel env t
    let fields ← simplifyPatFields fuel env fields
    some ((x, p, t) :: fields)
end

end

def isName : Constructor → Bool
  | .name _ => true
  | _ => false

def hasName (x : String) : Constructor → Bool
  | .name s => s = x
  | _ => false

/-- The value of the first field whose name is literally `x`. -/
def fieldNamed (fields : List (Constructor × Expression × Constructor)) (x : String) :
    Option Expression := (fields.find? fun f => hasName x f.1).map fun f => f.2.1

mutual
def tryMatchInner (baseline : Nat) : Environment → Pattern → Expression → MatchResult
  | env, .var _ _, e => .yes (.known (shiftExp (env.length - baseline : Nat) 0 e 0 0) :: env)
  | env, .prim pp, e => match e with
    | .prim ep => if primEq pp ep then .yes env else .no
    | _ => .maybe
  | env, .constructor _ (.var n1) _ sub, e => match e with
    | .constructor _ (.var n2) _ payload => tryMatchSub baseline (n1 = n2) env sub payload
    | _ => .maybe
  | env, .constructor _ (.ffi m1 _ _ c1 _ _) _ sub, e => match e with
    | .constructor _ (.ffi m2 _ _ c2 _ _) _ payload =>
      tryMatchSub baseline (m1 = m2 ∧ c1 = c2) env sub payload
    | _ => .maybe
  | env, .record xps, e => match e with
    | .record xes => if xes.any fun x => !isName x.1 then .maybe else tryMatchFields baseline env xps xes
    | _ => .maybe
/-- Match a constructor's payload, where `same` says that the constructors are the same. -/
def tryMatchSub (baseline : Nat) (same : Bool) :
    Environment → Option Pattern → Option Expression → MatchResult
  | env, none, none => if same then .yes env else .no
  | env, some pp, some ee => if same then tryMatchInner baseline env pp ee else .no
  | _, _, _ => .maybe
def tryMatchFields (baseline : Nat) : Environment → List (String × Pattern × Constructor) →
    List (Constructor × Expression × Constructor) → MatchResult
  | env, [], _ => .yes env
  | env, (x, pp, _) :: xps, xes =>
    match fieldNamed xes x with
    | none => .no
    | some ev =>
      match tryMatchInner baseline env pp ev with
      | .no => .no
      | .maybe => .maybe
      | .yes env => tryMatchFields baseline env xps xes
end

def tryMatch (env : Environment) (p : Pattern) (e : Expression) : MatchResult :=
  tryMatchInner env.length env p e

/-- The arm that is certain to be taken, with the environment for its body. -/
def chosenArm (env : Environment) (disc : Expression) :
    List (Pattern × Expression) → Option (Environment × Expression)
  | [] => none
  | (p, body) :: arms =>
    match tryMatch env p disc with
    | .no => chosenArm env disc arms
    | .maybe => none
    | .yes armEnv => some (armEnv, body)

/-- The matched parts, each of which is read again below those matched before it. -/
def rereads (env : Environment) : Environment → List Step
  | .known e :: parts =>
    .reread (List.replicate parts.length .unknown ++ env) e :: rereads env parts
  | _ => []

-- ---------------------------------------------------------------------------
-- Expressions
-- ---------------------------------------------------------------------------

/-- Whether a literal zero is taken for the witness of an erased constraint. -/
def isErasedZeroWitnessApp (arg : Expression) (dom : Constructor) : Bool :=
  match arg with
  | .prim (.int n) => n = 0 &&
    match dom with
    | .unit => false
    | .ffi m x => !(m = "Basis" && x = "int")
    | _ => true
  | _ => false

section
variable (allowed : Step → Bool)

/-- Look up expression index `nOrig`, of which `nRem` binders remain to be passed. -/
def findExp (simplify : Environment → Expression → Option Expression) : Environment →
    (nOrig nRem : Nat) → (nudge : Int) → (liftC liftE : Nat) → Option Expression
  | [], nOrig, _, nudge, _, _ => some (.rel ((nOrig : Int) + nudge).toNat)
  | .lift lc le :: rest, nOrig, nRem, nudge, liftC, liftE =>
    findExp simplify rest nOrig nRem (nudge + le) (liftC + lc) (liftE + le)
  | .unknownC :: rest, nOrig, nRem, nudge, liftC, liftE =>
    findExp simplify rest nOrig nRem nudge (liftC + 1) liftE
  | .knownC _ :: rest, nOrig, nRem, nudge, liftC, liftE =>
    findExp simplify rest nOrig nRem nudge liftC liftE
  | .unknown :: rest, nOrig, nRem, nudge, liftC, liftE =>
    if nRem = 0 then some (.rel ((nOrig : Int) + nudge).toNat)
    else findExp simplify rest nOrig (nRem - 1) nudge liftC (liftE + 1)
  | .known e :: rest, nOrig, nRem, nudge, liftC, liftE =>
    if nRem = 0 then simplify (.lift liftC liftE :: rest) e
    else findExp simplify rest nOrig (nRem - 1) (nudge - 1) liftC liftE

def simplifyFieldMeta (fuel : Nat) (env : Environment) (info : FieldMeta) : Option FieldMeta := do
  let field ← simplifyCon allowed fuel env info.field
  let rest ← simplifyCon allowed fuel env info.rest
  some ⟨field, rest⟩

/-- `none` is a panic, or a computation that has not ended within `fuel` calls. -/
def simplifyExp : Nat → Environment → Expression → Option Expression
  | 0, _, _ => none
  | fuel + 1, env, exp =>
    match exp with
    | .prim p => some (.prim p)
    | .rel n => findExp (simplifyExp fuel) env n n 0 0 0
    | .named n => some (.named n)
    | .constructor dk pc cs payload => do
      let pc ← simplifyPatCon allowed fuel env pc
      let cs ← cs.mapM (simplifyCon allowed fuel env)
      let payload ← payload.mapM (simplifyExp fuel env)
      some (.constructor dk pc cs payload)
    | .ffi m x => some (.ffi m x)
    | .ffiApp m x args => do
      let args ← args.mapM fun a => do
        let e ← simplifyExp fuel env a.1
        let t ← simplifyCon allowed fuel env a.2
        some (e, t)
      some (.ffiApp m x args)
    | .app e1 e2 => do
      let f ← simplifyExp fuel env e1
      let arg ← simplifyExp fuel env e2
      match f with
      | .abs x dom ran body =>
        if isErasedZeroWitnessApp arg dom then
          guard (allowed .drop)
          some (.abs x dom ran body)
        else
          guard (allowed (.reread (.unknown :: deKnown env) body))
          guard (allowed (.reread (deKnown env) arg))
          simplifyExp fuel (.known arg :: deKnown env) body
      | f => some (.app f arg)
    | .abs x dom ran e => do
      let dom ← simplifyCon allowed fuel env dom
      let ran ← simplifyCon allowed fuel env ran
      let e ← simplifyExp fuel (.unknown :: env) e
      some (.abs x dom ran e)
    | .cApp e c => do
      let f ← simplifyExp fuel env e
      let c ← simplifyCon allowed fuel env c
      match f with
      | .cAbs _ _ body =>
        guard (allowed (.reread (.unknownC :: deKnown env) body))
        guard (allowed (.rereadCon (deKnown env) c))
        simplifyExp fuel (.knownC c :: deKnown env) body
      | f => some (.cApp f c)
    | .cAbs x k e => do
      let e ← simplifyExp fuel (.unknownC :: env) e
      some (.cAbs x k e)
    | .kApp e k => do
      let e ← simplifyExp fuel env e
      some (.kApp e k)
    | .kAbs x e => do
      let e ← simplifyExp fuel env e
      some (.kAbs x e)
    | .record fields => do
      let fields ← fields.mapM fun f => do
        let c ← simplifyCon allowed fuel env f.1
        let e ← simplifyExp fuel env f.2.1
        let t ← simplifyCon allowed fuel env f.2.2
        some (c, e, t)
      some (.record fields)
    | .field e c info => do
      let e ← simplifyExp fuel env e
      let c ← simplifyCon allowed fuel env c
      let info ← simplifyFieldMeta allowed fuel env info
      match e, c with
      | .record fields, .name x =>
        match fieldNamed fields x with
        | some v => some v
        | none => some (.field e c info)
      | _, _ => some (.field e c info)
    | .concat e1 c1 e2 c2 => do
      let e1 ← simplifyExp fuel env e1
      let c1 ← simplifyCon allowed fuel env c1
      let e2 ← simplifyExp fuel env e2
      let c2 ← simplifyCon allowed fuel env c2
      some (.concat e1 c1 e2 c2)
    | .cut e c info => do
      let e ← simplifyExp fuel env e
      let c ← simplifyCon allowed fuel env c
      let info ← simplifyFieldMeta allowed fuel env info
      some (.cut e c info)
    | .cutMulti e c info => do
      let e ← simplifyExp fuel env e
      let c ← simplifyCon allowed fuel env c
      let rest ← simplifyCon allowed fuel env info.rest
      some (.cutMulti e c ⟨rest⟩)
    | .case disc arms info => do
      let d ← simplifyCon allowed fuel env info.disc
      let r ← simplifyCon allowed fuel env info.result
      let disc ← simplifyExp fuel env disc
      match chosenArm env disc arms with
      | some (armEnv, body) =>
        guard ((rereads env (armEnv.take (armEnv.length - env.length))).all allowed)
        simplifyExp fuel armEnv body
      | none =>
        let arms ← arms.mapM fun a => do
          let p ← simplifyPat allowed fuel env a.1
          let e ← simplifyExp fuel (List.replicate (patBindsN a.1) .unknown ++ env) a.2
          some (p, e)
        some (.case disc arms ⟨d, r⟩)
    | .write e => do
      let e ← simplifyExp fuel env e
      some (.write e)
    | .closure n es => do
      let es ← es.mapM (simplifyExp fuel env)
      some (.closure n es)
    | .letIn x t e1 e2 => do
      let t ← simplifyCon allowed fuel env t
      let e1 ← simplifyExp fuel env e1
      let e2 ← simplifyExp fuel (.unknown :: env) e2
      some (.letIn x t e1 e2)
    | .serverCall n es t fm => do
      let es ← es.mapM (simplifyExp fuel env)
      let t ← simplifyCon allowed fuel env t
      some (.serverCall n es t fm)

end

-- ---------------------------------------------------------------------------
-- Entry points
-- ---------------------------------------------------------------------------

/-- The code takes every step. -/
def everyStep : Step → Bool := fun _ => true

def reduceExp (fuel : Nat) (e : Expression) : Option Expression := simplifyExp everyStep fuel [] e

def reduceCon (fuel : Nat) (c : Constructor) : Option Constructor := simplifyCon everyStep fuel [] c

def reduceBinding (fuel : Nat) (vi : ValBinding) : Option ValBinding := do
  let body ← reduceExp fuel vi.body
  some { vi with body }

def reduceDecl (fuel : Nat) : Declaration → Option Declaration
  | .val vi => do
    let vi ← reduceBinding fuel vi
    some (.val vi)
  | .valRec vis => do
    let vis ← vis.mapM (reduceBinding fuel)
    some (.valRec vis)
  | .task e1 e2 => do
    let e1 ← reduceExp fuel e1
    let e2 ← reduceExp fuel e2
    some (.task e1 e2)
  | .policy e => do
    let e ← reduceExp fuel e
    some (.policy e)
  | d => some d

def reduce (fuel : Nat) (file : File) : Option File := file.mapM (reduceDecl fuel)

end UrWeb.Core.LocalReduction
