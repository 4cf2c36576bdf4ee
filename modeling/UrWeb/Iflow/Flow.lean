import UrWeb.Iflow.Scope

/-!
# The environment that travels with the result

`flow` is the evaluator with its continuations as functions: they get the
environment that the last subexpression ended in. The evaluator stops on every
expression and does what `flow` does.
-/

namespace UrWeb.Iflow

open Mono

/-- Evaluation that also returns the environment it ended in. -/
abbrev Step (σ : Type) := List Atom → Cont σ (List Atom × Atom)

section
variable {σ : Type} (fx : Effects σ)

/-- One after the other, each in the environment that the one before left. -/
def chain (after : Atom → Cont σ Unit) : List (Step σ) → List Atom →
    Cont σ (List Atom × List Atom)
  | [], env => return (env, [])
  | f :: fs, env => do
    let (env, a) ← f env
    after a
    let (env, as) ← chain after fs env
    return (env, a :: as)

def flowRel (env : List Atom) (n : Nat) : Cont σ Atom :=
  match envGet env n with
  | some a => return a
  | none => fresh fx

mutual
def flow (e : Exp) (env : List Atom) : Cont σ (List Atom × Atom) := do
  .modify (fx.enter env e)
  match e with
  | .prim p => return (env, .const p)
  | .rel i => return (env, ← flowRel fx env i)
  | .named _ | .ffi _ _ | .abs _ _ _ _ | .javaScript _ _ | .signalReturn _ | .signalBind _ _
  | .signalSource _ | .serverCall _ _ _ _ | .recv _ _ | .sleep _ | .spawn _ =>
    return (env, ← fresh fx)
  | .con _ pc none => return (env, .func (.dtCon0 (patConName pc)) [])
  | .con _ pc (some inner) => do
    let (env, a) ← flow inner env
    return (env, .func (.dtCon1 (patConName pc)) [a])
  | .none _ => return (env, .func (.dtCon0 "None") [])
  | .some _ inner => do
    let (env, a) ← flow inner env
    return (env, .func (.dtCon1 "Some") [a])
  | .ffiApp module name args =>
    if module = "Basis" ∧ isWriter name then do
      let (env, _) ← chain (send fx) (flowArgs args) env
      return (env, .recd [])
    else do
      let (env, as) ← chain (fun _ => return ()) (flowArgs args) env
      return (env, .func (.other (module ++ "." ++ name)) as)
  | .app f arg =>
    match f with
    | .ffi _ _ => do
      let (env, a) ← flow arg env
      send fx a
      return (env, .recd [])
    | .error _ _ => flow f env
    | _ => return (env, ← fresh fx)
  | .unop op e1 => do
    let (env, a) ← flow e1 env
    return (env, .func (.other op) [a])
  | .binop _ op e1 e2 => do
    let (_, a1) ← flow e1 env
    let (env, a2) ← flow e2 env
    return (env, .func (.other op) [a1, a2])
  | .record xets => do
    let (env, as) ← chain (fun _ => return ()) (flowFields xets) env
    return (env, .recd ((xets.map Prod.fst).zip as))
  | .field e1 x => do
    let (env, a) ← flow e1 env
    return (env, .proj a x)
  | .case disc arms _ => do
    let (env, a) ← flow disc env
    branch fx <| (flowArms arms).map fun (pat, body) => do
      body (← .lift fun s => evalPat fx env s a pat)
  | .strcat e1 e2 => do
    let (_, a1) ← flow e1 env
    let (env, a2) ← flow e2 env
    return (env, .func (.other "cat") [a1, a2])
  | .error e1 _ | .redirect e1 _ => do
    let (_, a) ← flow e1 env
    .stop (fx.send a)
  | .returnBlob (some blob) mimeType _ => do
    let (env, a) ← flow blob env
    send fx a
    let (_, a) ← flow mimeType env
    .stop (fx.send a)
  | .returnBlob none mimeType _ => do
    let (_, a) ← flow mimeType env
    .stop (fx.send a)
  | .write e1 => do
    let (env, a) ← flow e1 env
    send fx a
    return (env, .recd [])
  | .seq e1 e2 => do
    let _ ← flow e1 env
    flow e2 env
  | .letIn _ _ e1 e2 => do
    let (_, a) ← flow e1 env
    flow e2 (env ++ [a])
  | .closure id captured => do
    let (env, as) ← chain (fun _ => return ()) (flowEnvs captured) env
    return (env, .func (.other ("Cl" ++ toString id)) as)
  | .query qm _ body initial => do
    let (_, init) ← flow initial env
    let (r, acc, _) ← queryVars fx (qm.tables.map Prod.fst)
    assertAtoms fx [.aReln .eq [r, init]]
    flow body (env ++ [r] ++ [acc])
  | .dml e1 _ => do
    let (env, _) ← flow e1 env
    return (env, .recd [])
  | .nextval e1 => do
    let (env, a) ← flow e1 env
    return (env, ← nextval fx a)
  | .setval e1 e2 => do
    let _ ← flow e1 env
    let (env, _) ← flow e2 env
    return (env, .recd [])
  | .uurlify inner _ _ => return (env, ← uurlified fx inner)
def flowArgs : List (Exp × Typ) → List (Step σ)
  | [] => []
  | (e, _) :: args => flow e :: flowArgs args
def flowFields : List (String × Exp × Typ) → List (Step σ)
  | [] => []
  | (_, e, _) :: xets => flow e :: flowFields xets
def flowArms : List (Pat × Exp) → List (Pat × Step σ)
  | [] => []
  | (p, e) :: arms => (p, flow e) :: flowArms arms
def flowEnvs : List Exp → List (Step σ)
  | [] => []
  | e :: es => flow e :: flowEnvs es
end

theorem flowArgs_eq (args : List (Exp × Typ)) :
    flowArgs fx args = (args.map Prod.fst).map (flow fx) := by
  induction args with
  | nil => rfl
  | cons a args ih => simp [flowArgs, ih]

theorem flowFields_eq (xets : List (String × Exp × Typ)) :
    flowFields fx xets = xets.map fun f => flow fx f.2.1 := by
  induction xets with
  | nil => rfl
  | cons f xets ih => simp [flowFields, ih]

theorem flowArms_eq (arms : List (Pat × Exp)) :
    flowArms fx arms = arms.map fun arm => (arm.1, flow fx arm.2) := by
  induction arms with
  | nil => rfl
  | cons arm arms ih => simp [flowArms, ih]

theorem flowEnvs_eq (es : List Exp) : flowEnvs fx es = es.map (flow fx) := by
  induction es with
  | nil => rfl
  | cons e es ih => simp [flowEnvs, ih]

-- ---------------------------------------------------------------------------
-- Continuations as functions
-- ---------------------------------------------------------------------------

namespace Kont

def cont : Kont → List Atom × Atom → σ → σ
  | .done, _ => id
  | .con1 name rest, (env, a) => rest.cont (env, .func (.dtCon1 name) [a])
  | .some1 rest, (env, a) => rest.cont (env, .func (.dtCon1 "Some") [a])
  | .writerRest todo rest, (env, a) => fun s =>
    chain (send fx) (todo.map (flow fx)) env (fun r => rest.cont (r.1, .recd [])) (fx.send a s)
  | .collectFfi acc todo funcName rest, (env, a) =>
    chain (fun _ => return ()) (todo.map (flow fx)) env fun r =>
      rest.cont (r.1, .func (.other funcName) (acc ++ a :: r.2))
  | .appFfiSendArg rest, (env, a) => fun s => rest.cont (env, .recd []) (fx.send a s)
  | .unopWrap op rest, (env, a) => rest.cont (env, .func (.other op) [a])
  | .binopLeft op e2 env rest, (_, a) =>
    flow fx e2 env fun r => rest.cont (r.1, .func (.other op) [a, r.2])
  | .binopRight op a1 rest, (env, a) => rest.cont (env, .func (.other op) [a1, a])
  | .recordRest acc x todo rest, (env, a) =>
    chain (fun _ => return ()) (todo.map fun f => flow fx f.2) env fun r =>
      rest.cont (r.1, .recd (acc ++ (x, a) :: (todo.map Prod.fst).zip r.2))
  | .fieldProj field rest, (env, a) => rest.cont (env, .proj a field)
  | .strcatLeft e2 env rest, (_, a) =>
    flow fx e2 env fun r => rest.cont (r.1, .func (.other "cat") [a, r.2])
  | .strcatRight a1 rest, (env, a) => rest.cont (env, .func (.other "cat") [a1, a])
  | .writeThen rest, (env, a) => fun s => rest.cont (env, .recd []) (fx.send a s)
  | .seqSecond e2 env rest, _ => flow fx e2 env rest.cont
  | .letBody e2 baseEnv rest, (_, a) => flow fx e2 (baseEnv ++ [a]) rest.cont
  | .closureRest acc todo closureId rest, (env, a) =>
    chain (fun _ => return ()) (todo.map (flow fx)) env fun r =>
      rest.cont (r.1, .func (.other ("Cl" ++ toString closureId)) (acc ++ a :: r.2))
  | .queryAfterInit tables body baseEnv rest, (_, a) =>
    queryVars fx tables fun (r, acc, _) s =>
      flow fx body (baseEnv ++ [r] ++ [acc]) rest.cont (fx.assertAtoms [.aReln .eq [r, a]] s)
  | .caseDisc arms rest, (env, a) =>
    branch fx (arms.map fun arm => do
      flow fx arm.2 (← .lift fun s => evalPat fx env s a arm.1)) rest.cont
  | .dmlThen rest, (env, _) => rest.cont (env, .recd [])
  | .nextvalThen rest, (env, a) => nextval fx a fun nv => rest.cont (env, nv)
  | .setvalFirst e2 env rest, _ => flow fx e2 env fun r => rest.cont (r.1, .recd [])
  | .setvalSecond rest, (env, _) => rest.cont (env, .recd [])
  | .errorSendOnly, (_, a) | .redirectSendOnly, (_, a) => fx.send a
  | .returnBlobThenMime mimeType, (env, a) => fun s =>
    flow fx mimeType env (fun r => fx.send r.2) (fx.send a s)
  | .mimeSendOnly rest, (env, a) => fun s => rest.cont (env, .recd []) (fx.send a s)

end Kont

-- ---------------------------------------------------------------------------
-- The evaluator stops
-- ---------------------------------------------------------------------------

/-- With enough fuel the result is `r`. -/
def Gives (f : Nat → Option σ) (r : σ) : Prop := ∃ N, ∀ n, N ≤ n → f n = some r

theorem Gives.step {f g : Nat → Option σ} (hf : ∀ n, f (n + 1) = g n) (hg : Gives g r) :
    Gives f r := by
  obtain ⟨N, hN⟩ := hg
  refine ⟨N + 1, fun n hn => ?_⟩
  obtain ⟨n, rfl⟩ := Nat.exists_eq_add_one_of_ne_zero (Nat.ne_zero_of_lt hn)
  rw [hf]
  exact hN n (Nat.le_of_succ_le_succ hn)

theorem Gives.of_eq {f : Nat → Option σ} (hf : ∀ n, f (n + 1) = some r) : Gives f r :=
  .step (g := fun _ => some r) hf ⟨0, fun _ _ => rfl⟩

/-- Resuming with `K` does what `K` says. -/
def Resumes (K : Kont) : Prop :=
  ∀ env a s, Gives (fun n => resume fx n env a K s) (K.cont fx (env, a) s)

/-- Evaluating `e` does what `flow` says. -/
def Evaluates (e : Exp) : Prop :=
  ∀ env K s, Resumes fx K →
    Gives (fun n => evalExp fx n env e K s) (flow fx e env (K.cont fx) s)

variable {fx}

theorem resumes_writerRest (ht : ∀ e ∈ todo, Evaluates fx e) (hK : Resumes fx K) :
    Resumes fx (.writerRest todo K) := by
  intro env a s
  induction todo generalizing env a s with
  | nil => exact .step (fun _ => rfl) (hK _ _ _)
  | cons e todo ih =>
    refine .step (fun _ => rfl) (ht e List.mem_cons_self env (.writerRest todo K) _ ?_)
    exact fun _ _ _ => ih (fun e he => ht e (List.mem_cons_of_mem _ he)) _ _ _

theorem resumes_collectFfi (ht : ∀ e ∈ todo, Evaluates fx e) (hK : Resumes fx K) :
    Resumes fx (.collectFfi acc todo name K) := by
  intro env a s
  induction todo generalizing acc env a s with
  | nil => exact .step (fun _ => rfl) (hK _ _ _)
  | cons e todo ih =>
    have hrest : Resumes fx (.collectFfi (acc ++ [a]) todo name K) :=
      fun _ _ _ => ih (fun e he => ht e (List.mem_cons_of_mem _ he)) _ _ _
    refine .step (g := fun n => evalExp fx n env e (.collectFfi (acc ++ [a]) todo name K) s)
      (fun _ => rfl) ?_
    have h := ht e List.mem_cons_self env (.collectFfi (acc ++ [a]) todo name K) s hrest
    simpa [Kont.cont, chain, bind, pure] using h

theorem resumes_closureRest (ht : ∀ e ∈ todo, Evaluates fx e) (hK : Resumes fx K) :
    Resumes fx (.closureRest acc todo n K) := by
  intro env a s
  induction todo generalizing acc env a s with
  | nil => exact .step (fun _ => rfl) (hK _ _ _)
  | cons e todo ih =>
    have hrest : Resumes fx (.closureRest (acc ++ [a]) todo n K) :=
      fun _ _ _ => ih (fun e he => ht e (List.mem_cons_of_mem _ he)) _ _ _
    refine .step (g := fun m => evalExp fx m env e (.closureRest (acc ++ [a]) todo n K) s)
      (fun _ => rfl) ?_
    have h := ht e List.mem_cons_self env (.closureRest (acc ++ [a]) todo n K) s hrest
    simpa [Kont.cont, chain, bind, pure] using h

theorem resumes_recordRest {todo : List (String × Exp)} (ht : ∀ f ∈ todo, Evaluates fx f.2)
    (hK : Resumes fx K) : Resumes fx (.recordRest acc x todo K) := by
  intro env a s
  induction todo generalizing acc x env a s with
  | nil => exact .step (fun _ => rfl) (hK _ _ _)
  | cons f todo ih =>
    obtain ⟨y, e⟩ := f
    have hrest : Resumes fx (.recordRest (acc ++ [(x, a)]) y todo K) :=
      fun _ _ _ => ih (fun f hf => ht f (List.mem_cons_of_mem _ hf)) _ _ _
    refine .step (g := fun n => evalExp fx n env e (.recordRest (acc ++ [(x, a)]) y todo K) s)
      (fun _ => rfl) ?_
    have h := ht (y, e) List.mem_cons_self env (.recordRest (acc ++ [(x, a)]) y todo K) s hrest
    simpa [Kont.cont, chain, bind, pure] using h

/-- One arm after the other, each with the rest of the program. -/
theorem resumes_caseDisc {arms : List (Pat × Exp)} (ha : ∀ arm ∈ arms, Evaluates fx arm.2)
    (hK : Resumes fx K) : Resumes fx (.caseDisc arms K) := by
  intro env a s
  refine .step (g := fun n => arms.foldlM (fun s arm => do
    let s' ← evalExp fx n (evalPat fx env s a arm.1).1 arm.2 K (evalPat fx env s a arm.1).2
    return fx.reinstate s s') s) (fun _ => rfl) ?_
  show Gives _ ((arms.map _).foldl _ s)
  rw [List.foldl_map]
  induction arms generalizing s with
  | nil => exact ⟨0, fun _ _ => rfl⟩
  | cons arm arms ih =>
    obtain ⟨N, hN⟩ := ha arm List.mem_cons_self (evalPat fx env s a arm.1).1 K
      (evalPat fx env s a arm.1).2 hK
    obtain ⟨N', hN'⟩ := ih (fun b hb => ha b (List.mem_cons_of_mem _ hb)) _
    refine ⟨max N N', fun n hn => ?_⟩
    have hn' := hN n (le_of_max_le_left hn)
    simp only [List.foldlM_cons, List.foldl_cons] at hn' ⊢
    rw [hn']
    exact hN' n (le_of_max_le_right hn)

theorem resumes_queryAfterInit (hb : Evaluates fx body) (hK : Resumes fx K) :
    Resumes fx (.queryAfterInit tables body baseEnv K) := by
  intro env a s
  exact .step (fun _ => rfl) (hb _ _ _ hK)

theorem evaluates (e : Exp) : Evaluates fx e := by
  induction e with
  | con dk pc arg ih =>
    intro env K s hK
    cases arg with
    | none => exact .step (fun _ => rfl) (hK _ _ _)
    | some inner =>
      refine .step (fun _ => rfl) (ih inner rfl env (.con1 (patConName pc) K) _ ?_)
      exact fun _ _ _ => .step (fun _ => rfl) (hK _ _ _)
  | rel i =>
    intro env K s hK
    cases hi : envGet env i with
    | some a =>
      have hflow : flow fx (.rel i) env (K.cont fx) s =
          K.cont fx (env, a) (fx.enter env (.rel i) s) := by
        simp [flow, flowRel, hi, bind, pure, Cont.modify]
      rw [hflow]
      exact .step (fun n => by simp [evalExp, hi]) (hK _ _ _)
    | none =>
      have hflow : flow fx (.rel i) env (K.cont fx) s =
          fresh fx (fun a => K.cont fx (env, a)) (fx.enter env (.rel i) s) := by
        simp [flow, flowRel, hi, bind, pure, Cont.modify]
      rw [hflow]
      exact .step (fun n => by simp [evalExp, hi]) (hK _ _ _)
  | some t e ih =>
    intro env K s hK
    refine .step (fun _ => rfl) (ih env (.some1 K) _ ?_)
    exact fun _ _ _ => .step (fun _ => rfl) (hK _ _ _)
  | ffiApp m x args ih =>
    intro env K s hK
    have hargs : ∀ e ∈ args.map Prod.fst, Evaluates fx e := List.forall_mem_map.mpr ih
    by_cases hw : m = "Basis" ∧ isWriter x = true
    · have hflow : flow fx (.ffiApp m x args) env (K.cont fx) s =
          chain (send fx) ((args.map Prod.fst).map (flow fx)) env (fun r => K.cont fx (r.1, .recd []))
            (fx.enter env (.ffiApp m x args) s) := by
        rw [flow]
        simp only [if_pos hw, flowArgs_eq]
        rfl
      rw [hflow]
      have heval n : evalExp fx (n + 1) env (.ffiApp m x args) K s =
          match args.map Prod.fst with
          | [] => resume fx n env (.recd []) K (fx.enter env (.ffiApp m x args) s)
          | e :: todo => evalExp fx n env e (.writerRest todo K)
            (fx.enter env (.ffiApp m x args) s) := by
        rw [evalExp]
        exact if_pos hw
      refine .step heval ?_
      generalize args.map Prod.fst = todo at hargs
      cases todo with
      | nil => exact hK _ _ _
      | cons e todo =>
        exact hargs e List.mem_cons_self env (.writerRest todo K) _
          (resumes_writerRest (fun e he => hargs e (List.mem_cons_of_mem _ he)) hK)
    · have hflow : flow fx (.ffiApp m x args) env (K.cont fx) s =
          chain (fun _ => return ()) ((args.map Prod.fst).map (flow fx)) env
            (fun r => K.cont fx (r.1, .func (.other (m ++ "." ++ x)) r.2))
            (fx.enter env (.ffiApp m x args) s) := by
        rw [flow]
        simp only [if_neg hw, flowArgs_eq]
        rfl
      rw [hflow]
      have heval n : evalExp fx (n + 1) env (.ffiApp m x args) K s =
          match args.map Prod.fst with
          | [] => resume fx n env (.func (.other (m ++ "." ++ x)) []) K
            (fx.enter env (.ffiApp m x args) s)
          | e :: todo => evalExp fx n env e (.collectFfi [] todo (m ++ "." ++ x) K)
            (fx.enter env (.ffiApp m x args) s) := by
        rw [evalExp]
        exact if_neg hw
      refine .step heval ?_
      generalize args.map Prod.fst = todo at hargs
      cases todo with
      | nil => exact hK _ _ _
      | cons e todo =>
        exact hargs e List.mem_cons_self env (.collectFfi [] todo (m ++ "." ++ x) K) _
          (resumes_collectFfi (fun e he => hargs e (List.mem_cons_of_mem _ he)) hK)
  | app f arg ihf iha =>
    intro env K s hK
    cases f with
    | ffi m x =>
      refine .step (fun _ => rfl) (iha env (.appFfiSendArg K) _ ?_)
      exact fun _ _ _ => .step (fun _ => rfl) (hK _ _ _)
    | error e t => exact .step (fun _ => rfl) (ihf env K _ hK)
    | _ => exact .step (fun _ => rfl) (hK _ _ _)
  | unop op e ih =>
    intro env K s hK
    refine .step (fun _ => rfl) (ih env (.unopWrap op K) _ ?_)
    exact fun _ _ _ => .step (fun _ => rfl) (hK _ _ _)
  | binop bi op e1 e2 ih1 ih2 =>
    intro env K s hK
    refine .step (fun _ => rfl) (ih1 env (.binopLeft op e2 env K) _ fun _ a _ => ?_)
    refine .step (fun _ => rfl) (ih2 env (.binopRight op a K) _ ?_)
    exact fun _ _ _ => .step (fun _ => rfl) (hK _ _ _)
  | record xets ih =>
    intro env K s hK
    cases xets with
    | nil => exact .step (fun _ => rfl) (hK _ _ _)
    | cons f todo =>
      obtain ⟨x, e, t⟩ := f
      have htodo : ∀ f ∈ todo.map fun f => (f.1, f.2.1), Evaluates fx f.2 := by
        intro f hf
        obtain ⟨g, hg, rfl⟩ := List.mem_map.mp hf
        exact ih g (List.mem_cons_of_mem _ hg)
      have h := ih (x, e, t) List.mem_cons_self env
        (.recordRest [] x (todo.map fun f => (f.1, f.2.1)) K)
        (fx.enter env (.record ((x, e, t) :: todo)) s) (resumes_recordRest htodo hK)
      have hflow : flow fx (.record ((x, e, t) :: todo)) env (K.cont fx) s =
          flow fx e env ((Kont.recordRest [] x (todo.map fun f => (f.1, f.2.1)) K).cont fx)
            (fx.enter env (.record ((x, e, t) :: todo)) s) := by
        simp only [flow, flowFields_eq, Kont.cont, List.map_map]
        rfl
      rw [hflow]
      exact .step (fun _ => rfl) h
  | field e x ih =>
    intro env K s hK
    refine .step (fun _ => rfl) (ih env (.fieldProj x K) _ ?_)
    exact fun _ _ _ => .step (fun _ => rfl) (hK _ _ _)
  | case disc arms info ihd iha =>
    intro env K s hK
    refine .step (fun _ => rfl) ?_
    have h := ihd env (.caseDisc arms K) (fx.enter env (.case disc arms info) s)
      (resumes_caseDisc iha hK)
    have hflow : flow fx (.case disc arms info) env (K.cont fx) s =
        flow fx disc env ((Kont.caseDisc arms K).cont fx) (fx.enter env (.case disc arms info) s) := by
      simp only [flow, flowArms_eq, List.map_map]
      rfl
    rw [hflow]
    exact h
  | strcat e1 e2 ih1 ih2 =>
    intro env K s hK
    refine .step (fun _ => rfl) (ih1 env (.strcatLeft e2 env K) _ fun _ a _ => ?_)
    refine .step (fun _ => rfl) (ih2 env (.strcatRight a K) _ ?_)
    exact fun _ _ _ => .step (fun _ => rfl) (hK _ _ _)
  | error e t ih =>
    intro env K s hK
    exact .step (fun _ => rfl) (ih env .errorSendOnly _ fun _ _ _ => .of_eq fun _ => rfl)
  | returnBlob blob mimeType t ihb ihm =>
    intro env K s hK
    have hsend : Resumes fx (.mimeSendOnly .done) :=
      fun _ _ _ => .step (fun _ => rfl) (.of_eq fun _ => rfl)
    cases blob with
    | none => exact .step (fun _ => rfl) (ihm env (.mimeSendOnly .done) _ hsend)
    | some blob =>
      refine .step (fun _ => rfl) (ihb blob rfl env (.returnBlobThenMime mimeType) _ ?_)
      exact fun env _ _ => .step (fun _ => rfl) (ihm env (.mimeSendOnly .done) _ hsend)
  | redirect e t ih =>
    intro env K s hK
    exact .step (fun _ => rfl) (ih env .redirectSendOnly _ fun _ _ _ => .of_eq fun _ => rfl)
  | write e ih =>
    intro env K s hK
    refine .step (fun _ => rfl) (ih env (.writeThen K) _ ?_)
    exact fun _ _ _ => .step (fun _ => rfl) (hK _ _ _)
  | seq e1 e2 ih1 ih2 =>
    intro env K s hK
    refine .step (fun _ => rfl) (ih1 env (.seqSecond e2 env K) _ ?_)
    exact fun _ _ _ => .step (fun _ => rfl) (ih2 env K _ hK)
  | letIn x t e1 e2 ih1 ih2 =>
    intro env K s hK
    refine .step (fun _ => rfl) (ih1 env (.letBody e2 env K) _ ?_)
    exact fun _ _ _ => .step (fun _ => rfl) (ih2 _ K _ hK)
  | closure n captured ih =>
    intro env K s hK
    cases captured with
    | nil => exact .step (fun _ => rfl) (hK _ _ _)
    | cons e todo =>
      refine .step (g := fun m => evalExp fx m env e (.closureRest [] todo n K)
        (fx.enter env (.closure n (e :: todo)) s)) (fun _ => rfl) ?_
      have h := ih e List.mem_cons_self env (.closureRest [] todo n K)
        (fx.enter env (.closure n (e :: todo)) s)
        (resumes_closureRest (fun e he => ih e (List.mem_cons_of_mem _ he)) hK)
      simpa [flow, flowEnvs_eq, Kont.cont, chain, bind, pure, Cont.modify] using h
  | query qm q body initial ihq ihb ihi =>
    intro env K s hK
    exact .step (fun _ => rfl) (ihi env (.queryAfterInit (qm.tables.map Prod.fst) body env K) _
      (resumes_queryAfterInit ihb hK))
  | dml e fm ih =>
    intro env K s hK
    refine .step (fun _ => rfl) (ih env (.dmlThen K) _ ?_)
    exact fun _ _ _ => .step (fun _ => rfl) (hK _ _ _)
  | nextval e ih =>
    intro env K s hK
    refine .step (fun _ => rfl) (ih env (.nextvalThen K) _ fun env a s => ?_)
    cases a with
    | const p => cases p <;> exact .step (fun _ => rfl) (hK _ _ _)
    | _ => exact .step (fun _ => rfl) (hK _ _ _)
  | setval e1 e2 ih1 ih2 =>
    intro env K s hK
    refine .step (fun _ => rfl) (ih1 env (.setvalFirst e2 env K) _ fun _ _ _ => ?_)
    refine .step (fun _ => rfl) (ih2 env (.setvalSecond K) _ ?_)
    exact fun _ _ _ => .step (fun _ => rfl) (hK _ _ _)
  | uurlify inner t b ih =>
    intro env K s hK
    by_cases hc : ∃ mode cname t', inner =
        .ffiApp "Basis" "get_cookie" [(.prim (.string mode cname), t')]
    · obtain ⟨mode, cname, t', rfl⟩ := hc
      exact .step (fun _ => rfl) (hK _ _ _)
    · have hne mode cname t' : inner ≠
          .ffiApp "Basis" "get_cookie" [(.prim (.string mode cname), t')] :=
        fun h => hc ⟨mode, cname, t', h⟩
      have hflow : flow fx (.uurlify inner t b) env (K.cont fx) s =
          fresh fx (fun a => K.cont fx (env, a)) (fx.enter env (.uurlify inner t b) s) := by
        simp [flow, uurlified, bind, pure, Cont.modify]
      rw [hflow]
      refine .step (fun n => ?_) (hK _ _ _)
      simp [evalExp]
  | _ =>
    intro env K s hK
    exact .step (fun _ => rfl) (hK _ _ _)

end

end UrWeb.Iflow
