import UrWeb.Lib.Behaviour
import UrWeb.Mono.Syntax

/-!
# Evaluation of Mono expressions

Left-to-right call-by-value evaluation. Page writes, database operations and
foreign calls are events, each with the response that it got; what responses are
possible, after which events, is up to the `World`. A server page function, a
script and a signal are values. Calls are counted: evaluation that goes deeper
than its allowance is seen running.
-/

namespace UrWeb.Mono

open Behaviour

inductive Tag
  | con (pc : PatCon)
  | none
  | some
  | record (names : List String)
  | closure (n : Nat)
  | signalReturn
  | signalBind
  | signalSource
  | rows

/-- What code is kept for: to be applied, or to be sent to the browser. -/
inductive CodeKind
  | function
  | script (mode : JavaScriptMode)

inductive Value where
  | prim (p : Prim)
  | node (tag : Tag) (args : List Value)
  | code (kind : CodeKind) (env : List Value) (body : Exp)

/-- Induction over a value, not going into code. -/
@[induction_eliminator]
theorem Value.induct {P : Value → Prop} (prim : ∀ p, P (.prim p))
    (node : ∀ tag (args : List Value), (∀ v ∈ args, P v) → P (.node tag args))
    (code : ∀ kind env body, P (.code kind env body)) (v : Value) : P v :=
  @Value.rec P (fun vs => ∀ v ∈ vs, P v) prim node (fun kind env body _ => code kind env body)
    (by simp) (fun _ _ hv ih => List.forall_mem_cons.mpr ⟨hv, ih⟩) v

def Value.unit : Value := .node (.record []) []

/-- The operations that leave the program. -/
inductive Op
  | ffi (m x : String)
  | error
  | returnBlob (hasBlob : Bool)
  | redirect
  | write
  | query
  | dml (fm : FailureMode)
  | nextval
  | setval
  | uurlify (t : Typ) (b : Bool)
  | serverCall (t : Typ) (eff : Effect) (fm : FailureMode)
  | recv (t : Typ)
  | sleep
  | spawn

structure Event where
  op : Op
  args : List Value
  response : Outcome Value

abbrev History := List Event

-- ---------------------------------------------------------------------------
-- Values and histories up to the code in them
-- ---------------------------------------------------------------------------

/-- A relation between pieces of code, each with its environment. -/
abbrev CodeRel := CodeKind → List Value → Exp → List Value → Exp → Prop

inductive ValueRel (R : CodeRel) : Value → Value → Prop
  | prim (p : Prim) : ValueRel R (.prim p) (.prim p)
  | node (tag : Tag) : List.Forall₂ (ValueRel R) args args' →
      ValueRel R (.node tag args) (.node tag args')
  | code : R kind env body env' body' → ValueRel R (.code kind env body) (.code kind env' body')

inductive EventRel (R : CodeRel) : Event → Event → Prop
  | mk (op : Op) : List.Forall₂ (ValueRel R) args args' → OutcomeRel (ValueRel R) o o' →
      EventRel R ⟨op, args, o⟩ ⟨op, args', o'⟩

abbrev HistoryRel (R : CodeRel) : History → History → Prop := List.Forall₂ (EventRel R)

/-- What operators work on. -/
inductive Scalar
  | prim (p : Prim)
  | bool (b : Bool)

/-- What lies outside the program. It may pass code on, but it cannot tell two
pieces of code apart. -/
structure World where
  respond : History → Op → List Value → Outcome Value → Prop
  operator : String → List Scalar → Option (Outcome Scalar)
  forth : ∀ {R : CodeRel}, HistoryRel R h h' → List.Forall₂ (ValueRel R) args args' →
    respond h op args o → ∃ o', respond h' op args' o' ∧ OutcomeRel (ValueRel R) o o'
  back : ∀ {R : CodeRel}, HistoryRel R h h' → List.Forall₂ (ValueRel R) args args' →
    respond h' op args' o' → ∃ o, respond h op args o ∧ OutcomeRel (ValueRel R) o o'

/-- Every operation returns the unit. -/
def World.silent : World where
  respond _ _ _ o := o = .ret .unit
  operator _ _ := none
  forth _ _ := by
    rintro rfl
    exact ⟨_, rfl, .ret (.node _ .nil)⟩
  back _ _ := by
    rintro rfl
    exact ⟨_, rfl, .ret (.node _ .nil)⟩

-- ---------------------------------------------------------------------------
-- Values
-- ---------------------------------------------------------------------------

/-- Modes belong to literals only. -/
def Prim.erase : Prim → Prim
  | .string _ s => .string .normal s
  | p => p

def Value.string (s : String) : Value := .prim (.string .normal s)

def boolCon (b : Bool) : PatCon := .ffi "Basis" "bool" (if b then "True" else "False") none

def Scalar.value : Scalar → Value
  | .prim p => .prim (Prim.erase p)
  | .bool b => .node (.con (boolCon b)) []

def Value.scalar : Value → Option Scalar
  | .prim p => some (.prim p)
  | .node (.con (.ffi "Basis" "bool" "True" _)) [] => some (.bool true)
  | .node (.con (.ffi "Basis" "bool" "False" _)) [] => some (.bool false)
  | _ => none

/-- Whether two references are to the same constructor of a datatype. -/
def PatCon.same : PatCon → PatCon → Bool
  | .var n, .var n' => n = n'
  | .ffi m d c _, .ffi m' d' c' _ => m = m' ∧ d = d' ∧ c = c'
  | _, _ => false

def Value.field (x : String) : Value → Option Value
  | .node (.record names) args => (names.zip args).lookup x
  | _ => none

mutual
/-- Match a value, pushing what the pattern's variables are bound to. -/
def Pat.matches : Pat → Value → List Value → Option (List Value)
  | .var _ _, v, env => .some (v :: env)
  | .prim p, .prim p', env => if primEq p p' then .some env else .none
  | .con _ pc arg, .node (.con pc') args, env =>
    if pc.same pc' then Pat.argMatches arg args env else .none
  | .none _, .node .none [], env => .some env
  | .some _ p, .node .some [v], env => p.matches v env
  | .record fields, v, env => Pat.fieldMatches fields v env
  | _, _, _ => .none
def Pat.argMatches : Option Pat → List Value → List Value → Option (List Value)
  | .none, [], env => .some env
  | .some p, [v], env => p.matches v env
  | _, _, _ => .none
def Pat.fieldMatches : List (String × Pat × Typ) → Value → List Value → Option (List Value)
  | [], _, env => .some env
  | (x, p, _) :: fields, v, env =>
    (v.field x).bind fun w => (p.matches w env).bind (Pat.fieldMatches fields v)
end

-- ---------------------------------------------------------------------------
-- Evaluation
-- ---------------------------------------------------------------------------

abbrev Comp (α : Type) := Run Event α

section
variable (W : World)

/-- Perform an operation: the event is recorded with its response. -/
def perform (op : Op) (args : List Value) : Comp Value := fun h h' o =>
  W.respond h op args o ∧ h' = h ++ [⟨op, args, o⟩]

/-- An operation that ends the request. -/
def halt (op : Op) (args : List Value) : Comp Value := fun h h' o =>
  o = .abort ∧ h' = h ++ [⟨op, args, .abort⟩]

/-- Division by zero ends the request. -/
def operate (s : String) (args : List Value) : Comp Value :=
  match (args.mapM Value.scalar).bind (W.operator s) with
  | some o => fun h h' o' => h' = h ∧ o' = o.map Scalar.value
  | none => Run.stuck

def strcat : Value → Value → Comp Value
  | .prim (.string _ s1), .prim (.string _ s2) => Run.pure (.string (s1 ++ s2))
  | _, _ => Run.stuck

section
-- how functions are applied, and what global names stand for
variable (call : Value → Value → Comp Value) (global : Nat → Comp Value)

mutual
def evalWith : Exp → List Value → Comp Value
  | .prim p, _ => Run.pure (.prim (Prim.erase p))
  | .rel n, env => Run.ofOption env[n]?
  | .named n, _ => global n
  | .con _ pc arg, env => (Run.all (evalOption arg env)).bind fun vs => Run.pure (.node (.con pc) vs)
  | .none _, _ => Run.pure (.node .none [])
  | .some _ e, env => (evalWith e env).bind fun v => Run.pure (.node .some [v])
  | .ffi m x, _ => perform W (.ffi m x) []
  | .ffiApp m x args, env => (Run.all (evalArgs args env)).bind (perform W (.ffi m x))
  | .app e1 e2, env => (evalWith e1 env).bind fun f => (evalWith e2 env).bind fun v => call f v
  | .abs _ _ _ body, env => Run.pure (.code .function env body)
  | .unop s e, env => (evalWith e env).bind fun v => operate W s [v]
  | .binop _ s e1 e2, env =>
    (evalWith e1 env).bind fun v1 => (evalWith e2 env).bind fun v2 => operate W s [v1, v2]
  | .record xets, env =>
    (Run.all (evalFields xets env)).bind fun vs =>
      Run.pure (.node (.record (xets.map Prod.fst)) vs)
  | .field e x, env => (evalWith e env).bind fun v => Run.ofOption (v.field x)
  | .case disc arms _, env => (evalWith disc env).bind fun v => evalArms arms v env
  | .strcat e1 e2, env =>
    (evalWith e1 env).bind fun v1 => (evalWith e2 env).bind fun v2 => strcat v1 v2
  | .error e _, env => (evalWith e env).bind fun v => halt .error [v]
  | .returnBlob blob mimeType _, env =>
    (Run.all (evalOption blob env)).bind fun vs =>
      (evalWith mimeType env).bind fun v => halt (.returnBlob blob.isSome) (vs ++ [v])
  | .redirect e _, env => (evalWith e env).bind fun v => halt .redirect [v]
  | .write e, env => (evalWith e env).bind fun v => perform W .write [v]
  | .seq e1 e2, env => (evalWith e1 env).bind fun _ => evalWith e2 env
  | .letIn _ _ e1 e2, env => (evalWith e1 env).bind fun v => evalWith e2 (v :: env)
  | .closure n envs, env =>
    (Run.all (evalList envs env)).bind fun vs => Run.pure (.node (.closure n) vs)
  -- the accumulator is set up before the query is built
  | .query _ q body initial, env =>
    (evalWith initial env).bind fun acc => (evalWith q env).bind fun v =>
      (perform W .query [v]).bind fun
        | .node .rows rows => Run.fold (fun acc row => evalWith body (acc :: row :: env)) rows acc
        | _ => Run.stuck
  | .dml e fm, env => (evalWith e env).bind fun v => perform W (.dml fm) [v]
  | .nextval e, env => (evalWith e env).bind fun v => perform W .nextval [v]
  | .setval e1 e2, env =>
    (evalWith e1 env).bind fun v1 => (evalWith e2 env).bind fun v2 => perform W .setval [v1, v2]
  | .uurlify e t b, env => (evalWith e env).bind fun v => perform W (.uurlify t b) [v]
  | .javaScript mode e, env => Run.pure (.code (.script mode) env e)
  | .signalReturn e, env => (evalWith e env).bind fun v => Run.pure (.node .signalReturn [v])
  | .signalBind e1 e2, env =>
    (evalWith e1 env).bind fun v1 => (evalWith e2 env).bind fun v2 =>
      Run.pure (.node .signalBind [v1, v2])
  | .signalSource e, env => (evalWith e env).bind fun v => Run.pure (.node .signalSource [v])
  | .serverCall e t eff fm, env =>
    (evalWith e env).bind fun v => perform W (.serverCall t eff fm) [v]
  | .recv e t, env => (evalWith e env).bind fun v => perform W (.recv t) [v]
  | .sleep e, env => (evalWith e env).bind fun v => perform W .sleep [v]
  | .spawn e, env => (evalWith e env).bind fun v => perform W .spawn [v]
def evalOption : Option Exp → List Value → List (Comp Value)
  | .none, _ => []
  | .some e, env => [evalWith e env]
def evalArgs : List (Exp × Typ) → List Value → List (Comp Value)
  | [], _ => []
  | (e, _) :: args, env => evalWith e env :: evalArgs args env
def evalFields : List (String × Exp × Typ) → List Value → List (Comp Value)
  | [], _ => []
  | (_, e, _) :: xets, env => evalWith e env :: evalFields xets env
def evalList : List Exp → List Value → List (Comp Value)
  | [], _ => []
  | e :: es, env => evalWith e env :: evalList es env
/-- The first arm that matches. -/
def evalArms : List (Pat × Exp) → Value → List Value → Comp Value
  | [], _, _ => Run.stuck
  | (p, e) :: arms, v, env =>
    match p.matches v env with
    | .some env' => evalWith e env'
    | .none => evalArms arms v env
end

end

/-- What the declarations bind a value id to. -/
def Decl.body (n : Nat) : Decl → Option Exp
  | .val vi => if vi.n = n then some vi.e else none
  | .valRec vis => (vis.find? fun vi => vi.n = n).map ValBinding.e
  | _ => none

def declBody (decls : List Decl) (n : Nat) : Option Exp := decls.findSome? (Decl.body n)

variable (decls : List Decl)

/-- Evaluation with calls and global names nested at most `depth` deep. -/
def eval : Nat → Exp → List Value → Comp Value
  | 0 => evalWith W (fun _ _ => Run.running) fun _ => Run.running
  | depth + 1 => evalWith W
    (fun
      | .code .function env body, v => eval depth body (v :: env)
      | _, _ => Run.stuck)
    fun n => match declBody decls n with
      | some e => eval depth e []
      | none => Run.stuck

/-- Application of a value. -/
def apply : Nat → Value → Value → Comp Value
  | 0, _, _ => Run.running
  | depth + 1, .code .function env body, v => eval W decls depth body (v :: env)
  | _ + 1, _, _ => Run.stuck

/-- The value of a global name. -/
def global : Nat → Nat → Comp Value
  | 0, _ => Run.running
  | depth + 1, n =>
    match declBody decls n with
    | some e => eval W decls depth e []
    | none => Run.stuck

theorem eval_eq (depth : Nat) :
    eval W decls depth = evalWith W (apply W decls depth) (global W decls depth) := by
  cases depth with
  | zero => rfl
  | succ depth =>
    rw [eval]
    congr 1
    funext f v
    split <;> simp_all [apply]

/-- A global function applied to arguments. -/
def applied (depth n : Nat) (args : List Value) : Comp Value :=
  args.foldl (fun r v => r.bind fun f => apply W decls depth f v) (global W decls depth n)

end

-- ---------------------------------------------------------------------------
-- What can be observed
-- ---------------------------------------------------------------------------

mutual
/-- No code inside. -/
def Value.isData : Value → Bool
  | .prim _ => true
  | .node _ args => Value.allData args
  | .code _ _ _ => false
def Value.allData : List Value → Bool
  | [] => true
  | v :: vs => v.isData && Value.allData vs
end

def Event.written : Event → Option String
  | ⟨.write, [.prim (.string _ s)], _⟩ => some s
  | _ => none

/-- The text of the page, write by write. -/
def page (h : History) : List String := h.filterMap Event.written

end UrWeb.Mono
