import UrWeb.Iflow.Evaluate
import UrWeb.Mono.Binders

/-!
# Scope of the information-flow evaluator

Two meanings of an expression for the analysis. In the lexical one every
subexpression is evaluated in the environment of its own binders; in the other
one the environment travels along with the result, as the evaluator has it.
-/

namespace UrWeb.Iflow

open Mono

-- ---------------------------------------------------------------------------
-- Computations with a continuation
-- ---------------------------------------------------------------------------

/-- Computations that hand their result to the rest of the program. -/
def Cont (σ α : Type) : Type := (α → σ → σ) → σ → σ

namespace Cont

variable {σ α β : Type}

instance : Monad (Cont σ) where
  pure a := fun k => k a
  bind m f := fun k => m fun a => f a k

def modify (f : σ → σ) : Cont σ Unit := fun k s => k () (f s)

/-- A computation that returns. -/
def lift (f : σ → α × σ) : Cont σ α := fun k s => k (f s).1 (f s).2

/-- The last thing to do: the rest of the program is dropped. -/
def stop (f : σ → σ) : Cont σ α := fun _ s => f s

end Cont

section
variable {σ : Type} (fx : Effects σ)

/-- The rest of the program after each of the arms, from the hypotheses before. -/
def branch {α : Type} (arms : List (Cont σ α)) : Cont σ α := fun k s =>
  arms.foldl (fun s arm => fx.reinstate s (arm k s)) s

def fresh : Cont σ Atom := .lift fx.freshVar

def send (a : Atom) : Cont σ Unit := .modify (fx.send a)

def assertAtoms (facts : List CondAtom) : Cont σ Unit := .modify (fx.assertAtoms facts)

/-- The variable for the next value of a sequence. -/
def nextval (a : Atom) : Cont σ Atom := do
  let nv ← fresh fx
  match a with
  | .const (.string _ name) => assertAtoms fx [.aReln (.sql (seqName name)) [nv]]
  | _ => pure ()
  return nv

/-- The parts of a node from left to right, with `after` once each has its atom. -/
def each (after : Atom → Cont σ Unit) : List (List Atom → Cont σ Atom) → List Atom →
    Cont σ (List Atom)
  | [], _ => return []
  | f :: fs, env => do
    let a ← f env
    after a
    return a :: (← each after fs env)

/-- A variable for the value of a cookie. -/
def cookie (name : String) : Cont σ Atom := do
  let nv ← fresh fx
  assertAtoms fx [.aReln .known [nv], .aReln .eq [nv, .func (.other ("cookie/" ++ name)) []]]
  return nv

/-- The decoded value: a cookie that is read right there, else anything. -/
def uurlified (inner : Exp) : Cont σ Atom :=
  match inner with
  | .ffiApp "Basis" "get_cookie" [(.prim (.string _ cname), _)] => cookie fx cname
  | _ => fresh fx

/-- The variables for the row and the accumulator of a query and for the row of
each table. -/
def queryVars (tables : List String) : Cont σ (Atom × Atom × List Atom) := do
  let r ← fresh fx
  let acc ← fresh fx
  let (rows, queryAtoms) ← .lift fun s =>
    let (rows, queryAtoms, s) := rowVars fx tables s
    ((rows, queryAtoms), s)
  assertAtoms fx queryAtoms
  .modify fun s => rows.foldl (fun s row => fx.send row s) s
  return (r, acc, rows)

-- ---------------------------------------------------------------------------
-- Lexical scope
-- ---------------------------------------------------------------------------

/-- The atom of the binder `n` levels out, a variable where there is none. -/
def lookupRel (env : List Atom) (n : Nat) : Cont σ Atom :=
  match env.reverse[n]? with
  | some a => return a
  | none => fresh fx

mutual
/-- What evaluating `e` does: every part is evaluated in the environment of the
binders around it. -/
def meaning (e : Exp) (env : List Atom) : Cont σ Atom := do
  .modify (fx.enter env e)
  match e with
  | .prim p => return .const p
  | .rel i => lookupRel fx env i
  | .named _ | .ffi _ _ | .abs _ _ _ _ | .javaScript _ _ | .signalReturn _ | .signalBind _ _
  | .signalSource _ | .serverCall _ _ _ _ | .recv _ _ | .sleep _ | .spawn _ => fresh fx
  | .con _ pc none => return .func (.dtCon0 (patConName pc)) []
  | .con _ pc (some inner) => return .func (.dtCon1 (patConName pc)) [← meaning inner env]
  | .none _ => return .func (.dtCon0 "None") []
  | .some _ inner => return .func (.dtCon1 "Some") [← meaning inner env]
  | .ffiApp module name args =>
    if module = "Basis" ∧ isWriter name then do
      let _ ← each (send fx) (meaningArgs args) env
      return .recd []
    else do
      let as ← each (fun _ => return ()) (meaningArgs args) env
      return .func (.other (module ++ "." ++ name)) as
  | .app f arg =>
    match f with
    | .ffi _ _ => do
      send fx (← meaning arg env)
      return .recd []
    | .error _ _ => meaning f env
    | _ => fresh fx
  | .unop op e1 => return .func (.other op) [← meaning e1 env]
  | .binop _ op e1 e2 => return .func (.other op) [← meaning e1 env, ← meaning e2 env]
  | .record xets => do
    let as ← each (fun _ => return ()) (meaningFields xets) env
    return .recd ((xets.map Prod.fst).zip as)
  | .field e1 x => return .proj (← meaning e1 env) x
  | .case disc arms _ => do
    let a ← meaning disc env
    branch fx <| (meaningArms arms).map fun (pat, body) => do
      body (← .lift fun s => evalPat fx env s a pat)
  | .strcat e1 e2 => return .func (.other "cat") [← meaning e1 env, ← meaning e2 env]
  | .error e1 _ | .redirect e1 _ => do .stop (fx.send (← meaning e1 env))
  | .returnBlob (some blob) mimeType _ => do
    send fx (← meaning blob env)
    .stop (fx.send (← meaning mimeType env))
  | .returnBlob none mimeType _ => do .stop (fx.send (← meaning mimeType env))
  | .write e1 => do
    send fx (← meaning e1 env)
    return .recd []
  | .seq e1 e2 => do
    let _ ← meaning e1 env
    meaning e2 env
  | .letIn _ _ e1 e2 => do
    let a ← meaning e1 env
    meaning e2 (env ++ [a])
  | .closure id captured => do
    let as ← each (fun _ => return ()) (meaningEnvs captured) env
    return .func (.other ("Cl" ++ toString id)) as
  | .query qm _ body initial => do
    let init ← meaning initial env
    let tables := qm.tables.map Prod.fst
    let (r, acc, rows) ← queryVars fx tables
    -- The accumulator starts with the initial value, and the row has the tables' rows.
    assertAtoms fx (.aReln .eq [acc, init] ::
      (tables.zip rows).map fun (tab, row) => .aReln .eq [.proj r tab, row])
    meaning body (env ++ [r] ++ [acc])
  | .dml e1 _ => do
    let _ ← meaning e1 env
    return .recd []
  | .nextval e1 => do nextval fx (← meaning e1 env)
  | .setval e1 e2 => do
    let _ ← meaning e1 env
    let _ ← meaning e2 env
    return .recd []
  | .uurlify inner _ _ => uurlified fx inner
def meaningArgs : List (Exp × Typ) → List (List Atom → Cont σ Atom)
  | [] => []
  | (e, _) :: args => meaning e :: meaningArgs args
def meaningFields : List (String × Exp × Typ) → List (List Atom → Cont σ Atom)
  | [] => []
  | (_, e, _) :: xets => meaning e :: meaningFields xets
def meaningArms : List (Pat × Exp) → List (Pat × (List Atom → Cont σ Atom))
  | [] => []
  | (p, e) :: arms => (p, meaning e) :: meaningArms arms
def meaningEnvs : List Exp → List (List Atom → Cont σ Atom)
  | [] => []
  | e :: es => meaning e :: meaningEnvs es
end

theorem meaningArgs_eq (args : List (Exp × Typ)) :
    meaningArgs fx args = args.map fun a => meaning fx a.1 := by
  induction args with
  | nil => rfl
  | cons a args ih => simp [meaningArgs, ih]

theorem meaningFields_eq (xets : List (String × Exp × Typ)) :
    meaningFields fx xets = xets.map fun f => meaning fx f.2.1 := by
  induction xets with
  | nil => rfl
  | cons f xets ih => simp [meaningFields, ih]

theorem meaningArms_eq (arms : List (Pat × Exp)) :
    meaningArms fx arms = arms.map fun arm => (arm.1, meaning fx arm.2) := by
  induction arms with
  | nil => rfl
  | cons arm arms ih => simp [meaningArms, ih]

theorem meaningEnvs_eq (es : List Exp) : meaningEnvs fx es = es.map (meaning fx) := by
  induction es with
  | nil => rfl
  | cons e es ih => simp [meaningEnvs, ih]

-- ---------------------------------------------------------------------------
-- Where an evaluation ends
-- ---------------------------------------------------------------------------

mutual
theorem evalPat_append (env : List Atom) (s : σ) (e : Atom) : ∀ p,
    ∃ as, as.length = patDepth p ∧ (evalPat fx env s e p).1 = env ++ as
  | .var _ _ => ⟨[e], rfl, rfl⟩
  | .prim _ | .none _ => ⟨[], rfl, (List.append_nil env).symm⟩
  | .con _ pc arg => evalPatOption_append env s e (patConName pc) arg
  | .record fields => evalPatFields_append env s e fields
  | .some _ inner => evalPat_append env s (.func (.unCon "Some") [e]) inner
theorem evalPatOption_append (env : List Atom) (s : σ) (e : Atom) (name : String) : ∀ p,
    ∃ as, as.length = patDepthOption p ∧ (evalPatOption fx env s e name p).1 = env ++ as
  | .none => ⟨[], rfl, (List.append_nil env).symm⟩
  | .some inner => evalPat_append env s (.func (.unCon name) [e]) inner
theorem evalPatFields_append (env : List Atom) (s : σ) (e : Atom) : ∀ fields,
    ∃ as, as.length = patDepthFields fields ∧ (evalPatFields fx env s e fields).1 = env ++ as
  | [] => ⟨[], rfl, (List.append_nil env).symm⟩
  | (x, p, _) :: fields => by
    obtain ⟨as, has, h⟩ := evalPat_append env s (.proj e x) p
    obtain ⟨bs, hbs, h'⟩ := evalPatFields_append (env ++ as) (evalPat fx env s (.proj e x) p).2 e
      fields
    refine ⟨as ++ bs, by simp [patDepthFields, has, hbs], ?_⟩
    show (evalPatFields fx (evalPat fx env s (.proj e x) p).1 (evalPat fx env s (.proj e x) p).2 e
      fields).1 = _
    rw [h, h', List.append_assoc]
end

end

end UrWeb.Iflow
