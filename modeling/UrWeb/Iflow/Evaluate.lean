import UrWeb.Iflow.Facts
import UrWeb.Mono.Syntax

/-!
# The evaluator of the information-flow check

Symbolic evaluation of Mono expressions in continuation-passing style. Some
continuations keep the environment they resume in, the others take the one that
the last subexpression ended in. The state of the analysis is reached through its
operations only.
-/

namespace UrWeb.Iflow

open Mono

/-- Atomic formulas. -/
inductive CondAtom
  | aReln (r : Reln) (args : List Atom)
  | aCond (e : Atom) (guard : CondAtom)

/-- What the evaluator does to the state `σ` of the analysis. `enter` is no
operation of the compiler: it sees every expression that is evaluated, with its
environment. -/
structure Effects (σ : Type) where
  enter : List Atom → Exp → σ → σ
  freshVar : σ → Atom × σ
  assertAtoms : List CondAtom → σ → σ
  send : Atom → σ → σ
  /-- The second state with the hypotheses and the variables of the first. -/
  reinstate : σ → σ → σ

def patConName : PatCon → String
  | .var n => "C" ++ toString n
  | .ffi module datatyp con _ => module ++ "." ++ datatyp ++ "." ++ con

def isWriter (name : String) : Bool :=
  ["htmlifyInt_w", "htmlifyFloat_w", "htmlifyString_w", "htmlifyBool_w", "htmlifyTime_w",
    "attrifyInt_w", "attrifyFloat_w", "attrifyString_w", "attrifyChar_w", "urlifyInt_w",
    "urlifyFloat_w", "urlifyString_w", "urlifyBool_w", "set_cookie"].contains name

section
variable {σ : Type} (fx : Effects σ)

mutual
/-- The environment, innermost binding last, with the bindings of the pattern. -/
def evalPat (env : List Atom) (s : σ) (e : Atom) : Pat → List Atom × σ
  | .var _ _ => (env ++ [e], s)
  | .prim _ => (env, s)
  | .con _ pc arg => evalPatOption env s e (patConName pc) arg
  | .record fields => evalPatFields env s e fields
  | .none _ => (env, fx.assertAtoms [.aReln (.pCon0 "None") [e]] s)
  | .some _ inner =>
    let (env', s') := evalPat env s (.func (.unCon "Some") [e]) inner
    (env', fx.assertAtoms [.aReln (.pCon1 "Some") [e]] s')
def evalPatOption (env : List Atom) (s : σ) (e : Atom) (name : String) :
    Option Pat → List Atom × σ
  | .none => (env, fx.assertAtoms [.aReln (.pCon0 name) [e]] s)
  | .some inner =>
    let (env', s') := evalPat env s (.func (.unCon name) [e]) inner
    (env', fx.assertAtoms [.aReln (.pCon1 name) [e]] s')
def evalPatFields (env : List Atom) (s : σ) (e : Atom) :
    List (String × Pat × Typ) → List Atom × σ
  | [] => (env, s)
  | (x, inner, _) :: fields =>
    let (env', s') := evalPat env s (.proj e x) inner
    evalPatFields env' s' e fields
end

end

/-- `env.get(env.len().saturating_sub(1 + n))`. -/
def envGet (env : List Atom) (n : Nat) : Option Atom := env[env.length - (1 + n)]?

/-- Continuations. The arguments, fields and captured values still to come are
kept as lists. -/
inductive Kont
  | done
  | con1 (name : String) (rest : Kont)
  | some1 (rest : Kont)
  | writerRest (todo : List Exp) (rest : Kont)
  | collectFfi (acc : List Atom) (todo : List Exp) (funcName : String) (rest : Kont)
  | appFfiSendArg (rest : Kont)
  | unopWrap (op : String) (rest : Kont)
  | binopLeft (op : String) (e2 : Exp) (env : List Atom) (rest : Kont)
  | binopRight (op : String) (a1 : Atom) (rest : Kont)
  | recordRest (acc : List (String × Atom)) (x : String) (todo : List (String × Exp)) (rest : Kont)
  | fieldProj (field : String) (rest : Kont)
  | strcatLeft (e2 : Exp) (env : List Atom) (rest : Kont)
  | strcatRight (a1 : Atom) (rest : Kont)
  | writeThen (rest : Kont)
  | seqSecond (e2 : Exp) (env : List Atom) (rest : Kont)
  | letBody (e2 : Exp) (baseEnv : List Atom) (rest : Kont)
  | closureRest (acc : List Atom) (todo : List Exp) (closureId : Nat) (rest : Kont)
  | queryAfterInit (tables : List String) (body : Exp) (baseEnv : List Atom) (rest : Kont)
  | caseDisc (arms : List (Pat × Exp)) (rest : Kont)
  | dmlThen (rest : Kont)
  | nextvalThen (rest : Kont)
  | setvalFirst (e2 : Exp) (env : List Atom) (rest : Kont)
  | setvalSecond (rest : Kont)
  | errorSendOnly
  | returnBlobThenMime (mimeType : Exp)
  | mimeSendOnly (rest : Kont)
  | redirectSendOnly

/-- `strip_prefix("uw_")`, or the name itself. -/
def seqName (s : String) : String :=
  match s.toList with
  | 'u' :: 'w' :: '_' :: rest => String.ofList rest
  | _ => s

section
variable {σ : Type} (fx : Effects σ)

/-- A variable for the row of each table, asserted to be in it. -/
def rowVars (tables : List String) (s : σ) : List Atom × List CondAtom × σ :=
  tables.foldl (fun (rows, facts, s) tab =>
    let (row, s') := fx.freshVar s
    (rows ++ [row], facts ++ [.aReln (.sql tab) [row]], s')) ([], [], s)

mutual
/-- `resume_with_atom`. Every call costs a unit of fuel. -/
def resume : Nat → List Atom → Atom → Kont → σ → Option σ
  | 0, _, _, _, _ => none
  | n + 1, env, atom, kont, s =>
    match kont with
    | .done => some s
    | .con1 name rest => resume n env (.func (.dtCon1 name) [atom]) rest s
    | .some1 rest => resume n env (.func (.dtCon1 "Some") [atom]) rest s
    | .writerRest todo rest =>
      let s := fx.send atom s
      match todo with
      | [] => resume n env (.recd []) rest s
      | e :: todo => evalExp n env e (.writerRest todo rest) s
    | .collectFfi acc todo funcName rest =>
      let acc := acc ++ [atom]
      match todo with
      | [] => resume n env (.func (.other funcName) acc) rest s
      | e :: todo => evalExp n env e (.collectFfi acc todo funcName rest) s
    | .appFfiSendArg rest => resume n env (.recd []) rest (fx.send atom s)
    | .unopWrap op rest => resume n env (.func (.other op) [atom]) rest s
    | .binopLeft op e2 savedEnv rest => evalExp n savedEnv e2 (.binopRight op atom rest) s
    | .binopRight op a1 rest => resume n env (.func (.other op) [a1, atom]) rest s
    | .recordRest acc x todo rest =>
      let acc := acc ++ [(x, atom)]
      match todo with
      | [] => resume n env (.recd acc) rest s
      | (x, e) :: todo => evalExp n env e (.recordRest acc x todo rest) s
    | .fieldProj field rest => resume n env (.proj atom field) rest s
    | .strcatLeft e2 savedEnv rest => evalExp n savedEnv e2 (.strcatRight atom rest) s
    | .strcatRight a1 rest => resume n env (.func (.other "cat") [a1, atom]) rest s
    | .writeThen rest => resume n env (.recd []) rest (fx.send atom s)
    | .seqSecond e2 savedEnv rest => evalExp n savedEnv e2 rest s
    | .letBody e2 baseEnv rest => evalExp n (baseEnv ++ [atom]) e2 rest s
    | .closureRest acc todo closureId rest =>
      let acc := acc ++ [atom]
      match todo with
      | [] => resume n env (.func (.other ("Cl" ++ toString closureId)) acc) rest s
      | e :: todo => evalExp n env e (.closureRest acc todo closureId rest) s
    | .queryAfterInit tables body baseEnv rest =>
      let (r, s) := fx.freshVar s
      let (acc, s) := fx.freshVar s
      let (rows, queryAtoms, s) := rowVars fx tables s
      let s := fx.assertAtoms queryAtoms s
      let s := rows.foldl (fun s row => fx.send row s) s
      let s := fx.assertAtoms [.aReln .eq [r, atom]] s
      evalExp n (baseEnv ++ [r] ++ [acc]) body rest s
    | .caseDisc arms rest =>
      arms.foldlM (fun s (pat, body) => do
        let (armEnv, s') := evalPat fx env s atom pat
        let s' ← evalExp n armEnv body rest s'
        return fx.reinstate s s') s
    | .dmlThen rest => resume n env (.recd []) rest s
    | .nextvalThen rest =>
      let (nv, s) := fx.freshVar s
      let s := match atom with
        | .const (.string _ name) => fx.assertAtoms [.aReln (.sql (seqName name)) [nv]] s
        | _ => s
      resume n env nv rest s
    | .setvalFirst e2 savedEnv rest => evalExp n savedEnv e2 (.setvalSecond rest) s
    | .setvalSecond rest => resume n env (.recd []) rest s
    | .errorSendOnly => some (fx.send atom s)
    | .returnBlobThenMime mimeType =>
      evalExp n env mimeType (.mimeSendOnly .done) (fx.send atom s)
    | .mimeSendOnly rest => resume n env (.recd []) rest (fx.send atom s)
    | .redirectSendOnly => some (fx.send atom s)

def evalExp : Nat → List Atom → Exp → Kont → σ → Option σ
  | 0, _, _, _, _ => none
  | n + 1, env, e, kont, s =>
    let s := fx.enter env e s
    -- `eval_default!`
    let evalDefault :=
      let (placeholder, s) := fx.freshVar s
      resume n env placeholder kont s
    match e with
    | .prim p => resume n env (.const p) kont s
    | .rel i =>
      match envGet env i with
      | some a => resume n env a kont s
      | none =>
        let (a, s) := fx.freshVar s
        resume n env a kont s
    | .named _ => evalDefault
    | .con _ pc none => resume n env (.func (.dtCon0 (patConName pc)) []) kont s
    | .con _ pc (some inner) => evalExp n env inner (.con1 (patConName pc) kont) s
    | .none _ => resume n env (.func (.dtCon0 "None") []) kont s
    | .some _ inner => evalExp n env inner (.some1 kont) s
    | .ffi _ _ => evalDefault
    | .ffiApp module name args =>
      if module = "Basis" ∧ isWriter name then
        match args.map Prod.fst with
        | [] => resume n env (.recd []) kont s
        | arg :: todo => evalExp n env arg (.writerRest todo kont) s
      else
        match args.map Prod.fst with
        | [] => resume n env (.func (.other (module ++ "." ++ name)) []) kont s
        | arg :: todo => evalExp n env arg (.collectFfi [] todo (module ++ "." ++ name) kont) s
    | .app f arg =>
      match f with
      | .ffi _ _ => evalExp n env arg (.appFfiSendArg kont) s
      | .error _ _ => evalExp n env f kont s
      | _ => evalDefault
    | .abs _ _ _ _ => evalDefault
    | .unop op e1 => evalExp n env e1 (.unopWrap op kont) s
    | .binop _ op e1 e2 => evalExp n env e1 (.binopLeft op e2 env kont) s
    | .record xets =>
      match xets.map fun f => (f.1, f.2.1) with
      | [] => resume n env (.recd []) kont s
      | (x, e1) :: todo => evalExp n env e1 (.recordRest [] x todo kont) s
    | .field e1 x => evalExp n env e1 (.fieldProj x kont) s
    | .case disc arms _ => evalExp n env disc (.caseDisc arms kont) s
    | .strcat e1 e2 => evalExp n env e1 (.strcatLeft e2 env kont) s
    | .error e1 _ => evalExp n env e1 .errorSendOnly s
    | .returnBlob (some blob) mimeType _ => evalExp n env blob (.returnBlobThenMime mimeType) s
    | .returnBlob none mimeType _ => evalExp n env mimeType (.mimeSendOnly .done) s
    | .redirect e1 _ => evalExp n env e1 .redirectSendOnly s
    | .write e1 => evalExp n env e1 (.writeThen kont) s
    | .seq e1 e2 => evalExp n env e1 (.seqSecond e2 env kont) s
    | .letIn _ _ e1 e2 => evalExp n env e1 (.letBody e2 env kont) s
    | .closure id captured =>
      match captured with
      | [] => resume n env (.func (.other ("Cl" ++ toString id)) []) kont s
      | e1 :: todo => evalExp n env e1 (.closureRest [] todo id kont) s
    | .query qm _ body initial =>
      evalExp n env initial (.queryAfterInit (qm.tables.map Prod.fst) body env kont) s
    | .dml e1 _ => evalExp n env e1 (.dmlThen kont) s
    | .nextval e1 => evalExp n env e1 (.nextvalThen kont) s
    | .setval e1 e2 => evalExp n env e1 (.setvalFirst e2 env kont) s
    | .uurlify inner _ _ =>
      match inner with
      | .ffiApp "Basis" "get_cookie" [(.prim (.string _ cname), _)] =>
        let (nv, s) := fx.freshVar s
        let s := fx.assertAtoms [.aReln .known [nv],
          .aReln .eq [nv, .func (.other ("cookie/" ++ cname)) []]] s
        resume n env nv kont s
      | _ => evalDefault
    | .javaScript _ _ | .signalReturn _ | .signalBind _ _ | .signalSource _
    | .serverCall _ _ _ _ | .recv _ _ | .sleep _ | .spawn _ => evalDefault
end

end

end UrWeb.Iflow
