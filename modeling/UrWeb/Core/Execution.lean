import UrWeb.Core.References
import UrWeb.Core.Semantics
import UrWeb.Core.Utilities
import UrWeb.Lib.Behaviour
import UrWeb.Settings

/-!
# What Core code executes

Left-to-right call-by-value evaluation that records every foreign function it
executes. Foreign functions may call back what they are given, monadic binds
among them. Type arguments are passed along, since they name record fields.
Calls are counted: evaluation that goes deeper than its allowance is seen
running.
-/

namespace UrWeb.Core.Execution

open Behaviour

/-- What the constructor and kind variables in scope stand for. -/
inductive TypeEnv where
  | nil
  | con (tenv : TypeEnv) (c : Constructor) (rest : TypeEnv)
  | kind (tenv : TypeEnv) (k : Kind) (rest : TypeEnv)

inductive Tag where
  | constructor (pc : PatternConstructor)
  | record (names : List String)
  /-- A table, a cookie or another thing that is declared and not computed. -/
  | declared (n : Nat)
  /-- A page function with the arguments it will get. -/
  | link (n : Nat)

inductive Value where
  | prim (p : Prim)
  | node (tag : Tag) (args : List Value)
  /-- An abstraction over a value, a constructor or a kind. -/
  | code (tenv : TypeEnv) (env : List Value) (abstraction : Expression)
  /-- A foreign function that waits for more arguments. -/
  | ffi (m x : String) (args : List Value)

inductive Argument where
  | value (v : Value)
  | con (tenv : TypeEnv) (c : Constructor)
  | kind (tenv : TypeEnv) (k : Kind)

/-- What a foreign function does: calls, one after the other, and an outcome. -/
inductive Script where
  | ret (v : Value)
  | abort
  | call (f v : Value) (next : Value → Script)

/-- A property of values that is about the functions in them. -/
structure Structural (P : Value → Prop) : Prop where
  prim : P (.prim p)
  node : P (.node tag args) ↔ ∀ v ∈ args, P v

def Script.Within (P : Value → Prop) : Script → Prop
  | .ret v => P v
  | .abort => True
  | .call f v next => P f ∧ P v ∧ ∀ r, P r → (next r).Within P

/-- What lies outside the program: what constructors stand for, and the foreign
functions, which make up no functions. -/
structure World where
  name : TypeEnv → Constructor → Option String
  row : TypeEnv → Constructor → Option (List String)
  arity : String → String → Nat
  respond : String → String → List Value → Script → Prop
  name_literal : name tenv (.name x) = some x
  respond_within : Structural P → (∀ v ∈ args, P v) → respond m x args s → s.Within P

/-- The attributes of a tag that are client event handlers. -/
def isHandler (x : String) : Bool := x.startsWith "On"

/-- An attribute record without its handlers. -/
def withoutHandlers : Value → Value
  | .node (.record names) vs =>
    let kept := (names.zip vs).filter fun f => !isHandler f.1
    .node (.record (kept.map Prod.fst)) (kept.map Prod.snd)
  | v => v

/-- The arguments as the server's part of a foreign function sees them: the
handlers of a tag are for the browser. -/
def serverArgs (m x : String) (args : List Value) : List Value :=
  if m = "Basis" ∧ x = "tag" then args.map withoutHandlers else args

def Value.unit : Value := .node (.record []) []

def Value.field (x : String) : Value → Option Value
  | .node (.record names) args => (names.zip args).lookup x
  | _ => none

mutual
/-- Match a value, pushing what the pattern's variables are bound to. -/
def Pattern.matches : Pattern → Value → List Value → Option (List Value)
  | .var _ _, v, env => some (v :: env)
  | .prim p, v, env =>
    match v with
    | .prim p' => if p = p' then some env else none
    | _ => none
  | .constructor _ pc _ sub, v, env =>
    match v with
    | .node (.constructor pc') args => if pc.same pc' then Pattern.subMatches sub args env else none
    | _ => none
  | .record fields, v, env => Pattern.fieldMatches fields v env
def Pattern.subMatches : Option Pattern → List Value → List Value → Option (List Value)
  | none, [], env => some env
  | some p, [v], env => Pattern.matches p v env
  | _, _, _ => none
def Pattern.fieldMatches :
    List (String × Pattern × Constructor) → Value → List Value → Option (List Value)
  | [], _, env => some env
  | (x, p, _) :: fields, v, env =>
    (v.field x).bind fun w => (Pattern.matches p w env).bind (Pattern.fieldMatches fields v)
end

abbrev Comp (α : Type) := Run Ffi α

section
variable (W : World) (file : File)

section
-- how values are applied, and what global names stand for
variable (call : Value → Argument → Comp Value) (global : Nat → Comp Value)

def Script.run : Script → Comp Value
  | .ret v => Run.pure v
  | .abort => fun h h' o => h' = h ∧ o = .abort
  | .call f v next => (call f (.value v)).bind fun r => (next r).run

/-- Execute a foreign function. -/
def perform (m x : String) (args : List Value) : Comp Value := fun h h' o =>
  ∃ s, W.respond m x (serverArgs m x args) s ∧ s.run call (h ++ [(m, x)]) h' o

def supply (m x : String) (args : List Value) : Comp Value :=
  if args.length < W.arity m x then Run.pure (.ffi m x args) else perform W call m x args

def record (names : List (Option String)) (vs : List Value) : Comp Value :=
  match names.mapM id with
  | some names => Run.pure (.node (.record names) vs)
  | none => Run.stuck

def concat : Value → Value → Comp Value
  | .node (.record names) vs, .node (.record names') vs' =>
    Run.pure (.node (.record (names ++ names')) (vs ++ vs'))
  | _, _ => Run.stuck

def cut (xs : List String) : Value → Comp Value
  | .node (.record names) vs =>
    let kept := (names.zip vs).filter fun f => f.1 ∉ xs
    Run.pure (.node (.record (kept.map Prod.fst)) (kept.map Prod.snd))
  | _ => Run.stuck

mutual
def evalWith : Expression → TypeEnv → List Value → Comp Value
  | .prim p, _, _ => Run.pure (.prim p)
  | .rel n, _, env => Run.ofOption env[n]?
  | .named n, _, _ => global n
  | .constructor _ pc _ payload, tenv, env =>
    (Run.all (evalPayload payload tenv env)).bind fun vs => Run.pure (.node (.constructor pc) vs)
  | .ffi m x, _, _ => supply W call m x []
  | .ffiApp m x args, tenv, env => (Run.all (evalArgs args tenv env)).bind (perform W call m x)
  | .app e1 e2, tenv, env =>
    (evalWith e1 tenv env).bind fun f => (evalWith e2 tenv env).bind fun v => call f (.value v)
  | .cApp e c, tenv, env => (evalWith e tenv env).bind fun f => call f (.con tenv c)
  | .kApp e k, tenv, env => (evalWith e tenv env).bind fun f => call f (.kind tenv k)
  | .abs x dom ran body, tenv, env => Run.pure (.code tenv env (.abs x dom ran body))
  | .cAbs x k body, tenv, env => Run.pure (.code tenv env (.cAbs x k body))
  | .kAbs x body, tenv, env => Run.pure (.code tenv env (.kAbs x body))
  | .record fields, tenv, env =>
    (Run.all (evalFields fields tenv env)).bind (record (fields.map fun f => W.name tenv f.1))
  | .field e c _, tenv, env => (evalWith e tenv env).bind fun v =>
    (Run.ofOption (W.name tenv c)).bind fun x => Run.ofOption (v.field x)
  | .concat e1 _ e2 _, tenv, env =>
    (evalWith e1 tenv env).bind fun v1 => (evalWith e2 tenv env).bind fun v2 => concat v1 v2
  | .cut e c _, tenv, env => (evalWith e tenv env).bind fun v =>
    (Run.ofOption (W.name tenv c)).bind fun x => cut [x] v
  | .cutMulti e c _, tenv, env => (evalWith e tenv env).bind fun v =>
    (Run.ofOption (W.row tenv c)).bind fun xs => cut xs v
  | .case disc arms _, tenv, env =>
    (evalWith disc tenv env).bind fun v => evalArms arms v tenv env
  | .write e, tenv, env => (evalWith e tenv env).bind fun _ => Run.pure .unit
  | .closure n es, tenv, env =>
    (Run.all (evalList es tenv env)).bind fun vs => Run.pure (.node (.link n) vs)
  | .letIn _ _ e1 e2, tenv, env =>
    (evalWith e1 tenv env).bind fun v => evalWith e2 tenv (v :: env)
  -- a call to the server is made by the client
  | .serverCall _ es _ _, tenv, env => (Run.all (evalList es tenv env)).bind fun _ => Run.stuck
def evalPayload : Option Expression → TypeEnv → List Value → List (Comp Value)
  | none, _, _ => []
  | some e, tenv, env => [evalWith e tenv env]
def evalArgs : List (Expression × Constructor) → TypeEnv → List Value → List (Comp Value)
  | [], _, _ => []
  | (e, _) :: args, tenv, env => evalWith e tenv env :: evalArgs args tenv env
def evalFields :
    List (Constructor × Expression × Constructor) → TypeEnv → List Value → List (Comp Value)
  | [], _, _ => []
  | (_, e, _) :: fields, tenv, env => evalWith e tenv env :: evalFields fields tenv env
def evalList : List Expression → TypeEnv → List Value → List (Comp Value)
  | [], _, _ => []
  | e :: es, tenv, env => evalWith e tenv env :: evalList es tenv env
/-- The first arm that matches. -/
def evalArms : List (Pattern × Expression) → Value → TypeEnv → List Value → Comp Value
  | [], _, _, _ => Run.stuck
  | (p, e) :: arms, v, tenv, env =>
    match Pattern.matches p v env with
    | some env' => evalWith e tenv env'
    | none => evalArms arms v tenv env
end

/-- Give a value an argument. -/
def applyWith : Value → Argument → Comp Value
  | .code tenv env (.abs _ _ _ body), .value v => evalWith W call global body tenv (v :: env)
  | .code tenv env (.cAbs _ _ body), .con tenv' c =>
    evalWith W call global body (.con tenv' c tenv) env
  | .code tenv env (.kAbs _ body), .kind tenv' k =>
    evalWith W call global body (.kind tenv' k tenv) env
  | .ffi m x args, .value v => supply W call m x (args ++ [v])
  -- types do not matter to foreign functions
  | .ffi m x args, .con _ _ | .ffi m x args, .kind _ _ => Run.pure (.ffi m x args)
  | _, _ => Run.stuck

/-- The value of a global name. -/
def globalWith (n : Nat) : Comp Value :=
  match file.body n with
  | some e => evalWith W call global e .nil []
  | none =>
    if ∃ d ∈ file, Ref.exp n ∈ d.defines then Run.pure (.node (.declared n) []) else Run.stuck

end

/-- Application and global names with calls nested at most `depth` deep. -/
def callAndGlobal : Nat → (Value → Argument → Comp Value) × (Nat → Comp Value)
  | 0 => (fun _ _ => Run.running, fun _ => Run.running)
  | depth + 1 =>
    let (call, global) := callAndGlobal depth
    (applyWith W call global, globalWith W file call global)

def apply (depth : Nat) : Value → Argument → Comp Value := (callAndGlobal W file depth).1

def global (depth : Nat) : Nat → Comp Value := (callAndGlobal W file depth).2

def eval (depth : Nat) : Expression → TypeEnv → List Value → Comp Value :=
  evalWith W (apply W file depth) (global W file depth)

/-- A global value applied to arguments. -/
def applied (depth n : Nat) (args : List Value) : Comp Value :=
  args.foldl (fun r v => r.bind fun f => apply W file depth f (.value v)) (global W file depth n)

end

/-- Foreign functions return the unit. -/
def World.silent : World where
  name _ c := match c with
    | .name x => some x
    | _ => none
  row _ _ := none
  arity _ _ := 0
  respond _ _ _ s := s = .ret .unit
  name_literal := rfl
  respond_within := by
    rintro P m x args s hP - rfl
    exact hP.node.mpr (by simp)

-- ---------------------------------------------------------------------------
-- The server's part
-- ---------------------------------------------------------------------------

/-- The foreign function that a spine of applications starts with. -/
def head : Expression → Option Ffi
  | .ffi m x => some (m, x)
  | .app e _ | .cApp e _ | .kApp e _ => head e
  | _ => none

def isHandlerField : Constructor → Bool
  | .name x => isHandler x
  | _ => false

/-- The handlers among the attributes of a tag are compiled for the browser. -/
def serverNode : Expression → Expression
  | .app f (.record fields) =>
    if head f = some ("Basis", "tag") then
      .app f (.record (fields.filter fun field => !isHandlerField field.1))
    else .app f (.record fields)
  | e => e

def serverBinding (vi : ValBinding) : ValBinding := { vi with body := vi.body.map serverNode }

def serverDecl : Declaration → Declaration
  | .val vi => .val (serverBinding vi)
  | .valRec vis => .valRec (vis.map serverBinding)
  | d => d

/-- What the server runs of a file. -/
def serverFile (file : File) : File := file.map serverDecl

/-- No functions inside. -/
inductive IsData : Value → Prop
  | prim : IsData (.prim p)
  | node : (∀ v ∈ args, IsData v) → IsData (.node tag args)

end UrWeb.Core.Execution
