import UrWeb.Core.Syntax

/-!
# Evaluation of Core expressions

Call-by-value evaluation, big step. Types are erased: where a step depends on
what a constructor stands for, or on code outside the program, it asks the
`World`.
-/

namespace UrWeb.Core

inductive Value where
  | prim (p : Prim)
  | constructor (pc : PatternConstructor) (payload : Option Value)
  | record (fields : List (String × Value))
  | closure (env : List Value) (body : Expression)
  /-- A type or kind abstraction. -/
  | suspension (env : List Value) (body : Expression)
  | ffi (m x : String) (args : List Value)
  /-- A page function with the arguments it will get. -/
  | link (n : Nat) (captured : List Value)

/-- The names and rows that a constructor may stand for, and what foreign
functions may return. -/
structure World where
  name : Constructor → String → Prop
  row : Constructor → List String → Prop
  ffi : String → String → List Value → Value → Prop

/-- Names stand for themselves, and foreign functions never return. -/
def World.isolated : World := ⟨fun c x => c = .name x, fun _ _ => False, fun _ _ _ _ => False⟩

/-- Whether two references are to the same constructor of a datatype. -/
def PatternConstructor.same : PatternConstructor → PatternConstructor → Bool
  | .var n, .var n' => n = n'
  | .ffi m d _ c _ _, .ffi m' d' _ c' _ _ => m = m' ∧ d = d' ∧ c = c'
  | _, _ => false

mutual
/-- Match a value, pushing what the pattern's variables are bound to. -/
def Pattern.matches : Pattern → Value → List Value → Option (List Value)
  | .var _ _, v, env => some (v :: env)
  | .prim p, v, env =>
    match v with
    | .prim p' => if p = p' then some env else none
    | _ => none
  | .constructor _ pc _ sub, v, env =>
    match v with
    | .constructor pc' payload => if pc.same pc' then Pattern.subMatches sub payload env else none
    | _ => none
  | .record fields, v, env =>
    match v with
    | .record vs => Pattern.fieldMatches fields vs env
    | _ => none
def Pattern.subMatches : Option Pattern → Option Value → List Value → Option (List Value)
  | none, none, env => some env
  | some p, some v, env => p.matches v env
  | _, _, _ => none
def Pattern.fieldMatches : List (String × Pattern × Constructor) → List (String × Value) →
    List Value → Option (List Value)
  | [], _, env => some env
  | (x, p, _) :: fields, vs, env =>
    match vs.lookup x with
    | some v => (p.matches v env).bind (Pattern.fieldMatches fields vs)
    | none => none
end

/-- The first arm that matches. -/
def selectArm : List (Pattern × Expression) → Value → List Value → Option (List Value × Expression)
  | [], _, _ => none
  | (p, e) :: arms, v, env =>
    match p.matches v env with
    | some env' => some (env', e)
    | none => selectArm arms v env

def Declaration.body (n : Nat) : Declaration → Option Expression
  | .val vi => if vi.id = n then some vi.body else none
  | .valRec vis => (vis.find? fun vi => vi.id = n).map ValBinding.body
  | _ => none

/-- What a value id stands for. -/
def File.body (file : File) (n : Nat) : Option Expression := file.findSome? (Declaration.body n)

section
variable (W : World) (file : File)

mutual
inductive Eval : List Value → Expression → Value → Prop
  | prim : Eval env (.prim p) (.prim p)
  | rel : env[n]? = some v → Eval env (.rel n) v
  | named : file.body n = some e → Eval [] e v → Eval env (.named n) v
  | constructor : EvalOption env payload v → Eval env (.constructor dk pc ts payload) (.constructor pc v)
  | ffi : W.ffi m x [] v → Eval env (.ffi m x) v
  | ffiFun : Eval env (.ffi m x) (.ffi m x [])
  | ffiApp : EvalList env (args.map Prod.fst) vs → W.ffi m x vs v → Eval env (.ffiApp m x args) v
  | app : Eval env e1 f → Eval env e2 v → Apply f v r → Eval env (.app e1 e2) r
  | abs : Eval env (.abs x dom ran body) (.closure env body)
  | cApp : Eval env e (.suspension env' body) → Eval env' body v → Eval env (.cApp e c) v
  | cAppFfi : Eval env e (.ffi m x vs) → Eval env (.cApp e c) (.ffi m x vs)
  | cAbs : Eval env (.cAbs x k body) (.suspension env body)
  | kAbs : Eval env (.kAbs x body) (.suspension env body)
  | kApp : Eval env e (.suspension env' body) → Eval env' body v → Eval env (.kApp e k) v
  | record : fields.length = vs.length →
      EvalList env (fields.map fun f => f.2.1) (vs.map Prod.snd) →
      (∀ fv ∈ fields.zip vs, W.name fv.1.1 fv.2.1) → Eval env (.record fields) (.record vs)
  | field : Eval env e (.record vs) → W.name c x → vs.lookup x = some v → Eval env (.field e c info) v
  | concat : Eval env e1 (.record vs) → Eval env e2 (.record vs') →
      Eval env (.concat e1 c1 e2 c2) (.record (vs ++ vs'))
  | cut : Eval env e (.record vs) → W.name c x →
      Eval env (.cut e c info) (.record (vs.filter fun f => f.1 ≠ x))
  | cutMulti : Eval env e (.record vs) → W.row c xs →
      Eval env (.cutMulti e c info) (.record (vs.filter fun f => f.1 ∉ xs))
  | case : Eval env disc v → selectArm arms v env = some (env', e) → Eval env' e r →
      Eval env (.case disc arms info) r
  | write : Eval env e v → Eval env (.write e) (.record [])
  | closure : EvalList env es vs → Eval env (.closure n es) (.link n vs)
  | letIn : Eval env e1 v → Eval (v :: env) e2 r → Eval env (.letIn x t e1 e2) r
  | serverCall : EvalList env es vs → Eval [] (.named n) f → ApplyAll f vs r →
      Eval env (.serverCall n es t fm) r
inductive EvalOption : List Value → Option Expression → Option Value → Prop
  | none : EvalOption env none none
  | some : Eval env e v → EvalOption env (some e) (some v)
inductive EvalList : List Value → List Expression → List Value → Prop
  | nil : EvalList env [] []
  | cons : Eval env e v → EvalList env es vs → EvalList env (e :: es) (v :: vs)
/-- A function value takes an argument. -/
inductive Apply : Value → Value → Value → Prop
  | closure : Eval (v :: env) body r → Apply (.closure env body) v r
  | ffi : W.ffi m x (vs ++ [v]) r → Apply (.ffi m x vs) v r
  | ffiPartial : Apply (.ffi m x vs) v (.ffi m x (vs ++ [v]))
inductive ApplyAll : Value → List Value → Value → Prop
  | nil : ApplyAll f [] f
  | cons : Apply f v g → ApplyAll g vs r → ApplyAll f (v :: vs) r
end

end

end UrWeb.Core
