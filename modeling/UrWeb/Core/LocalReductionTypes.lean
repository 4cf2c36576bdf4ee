import UrWeb.Core.FreeVariables

/-!
# Local reduction keeps what types mean

The environment gives the meaning of each variable in terms of the variables
that remain once the known ones are gone.
-/

namespace UrWeb.Core.LocalReduction

open GraphModel Denotation

theorem mapM_eq_some_iff {α β : Type} {f : α → Option β} {l : List α} {l' : List β} :
    l.mapM f = some l' ↔ List.Forall₂ (fun a b => f a = some b) l l' := by
  induction l generalizing l' with
  | nil => simp [eq_comm]
  | cons a l ih =>
    simp only [List.mapM_cons, Option.bind_eq_bind, Option.pure_def, Option.bind_eq_some_iff, ih,
      List.forall₂_cons_left_iff]
    constructor
    · rintro ⟨b, hb, bs, hbs, heq⟩
      exact ⟨b, bs, hb, hbs, (Option.some.inj heq).symm⟩
    · rintro ⟨b, bs, hb, hbs, rfl⟩
      exact ⟨b, hb, bs, hbs, rfl⟩

theorem guard_bind_eq_some {α : Type} {b : Bool} {x : Option α} {y : α} :
    (do guard (b = true); x) = some y ↔ b = true ∧ x = some y := by
  cases b <;> simp

-- ---------------------------------------------------------------------------
-- Environments
-- ---------------------------------------------------------------------------

/-- Values for the variables outside `k` binders. -/
def outer {α : Type} (k : Nat) (ρ : Nat → Set α) (i : Nat) : Set α := ρ (i + k)

@[simp] theorem outer_zero {α : Type} (ρ : Nat → Set α) : outer 0 ρ = ρ := rfl

@[simp] theorem outer_push {α : Type} (X : Set α) (ρ : Nat → Set α) : outer 1 (push X ρ) = ρ := rfl

theorem outer_outer {α : Type} (k l : Nat) (ρ : Nat → Set α) :
    outer k (outer l ρ) = outer (k + l) ρ := by
  funext i
  simp [outer, Nat.add_assoc]

section
variable (g : TypeGlobals)

/-- What the type variables mean where those of the result mean `τ`. -/
def typeContext : Environment → (Nat → TypeValue) → Nat → TypeValue
  | [], τ => τ
  | .unknown :: env, τ | .known _ :: env, τ => typeContext env τ
  | .unknownC :: env, τ => push (τ 0) (typeContext env (outer 1 τ))
  | .knownC c :: env, τ => push (conValue g c (typeContext env τ)) (typeContext env τ)
  | .lift lc _ :: env, τ => typeContext env (outer lc τ)

end

section
variable (g : Globals) (clash : Value)

/-- What the variables mean where those of the result mean `ρ`. -/
def context : Environment → (Nat → TypeValue) → (Nat → Value) → Nat → Value
  | [], _, ρ => ρ
  | .unknown :: env, τ, ρ => push (ρ 0) (context env τ (outer 1 ρ))
  | .known e :: env, τ, ρ =>
    push (value g clash e (typeContext g.types env τ) (context env τ ρ)) (context env τ ρ)
  | .unknownC :: env, τ, ρ => context env (outer 1 τ) ρ
  | .knownC _ :: env, τ, ρ => context env τ ρ
  | .lift lc le :: env, τ, ρ => context env (outer lc τ) (outer le ρ)

end

/-- Whether a type variable is the same variable in the result. -/
def fixedC : Environment → Nat → Bool
  | [], _ => true
  | .unknown :: env, n | .known _ :: env, n => fixedC env n
  | .unknownC :: _, 0 => true
  | .unknownC :: env, n + 1 => fixedC env n
  | .knownC _ :: _, _ => false
  | .lift lc _ :: env, n => lc = 0 && fixedC env n

/-- Whether a variable is the same variable in the result. -/
def fixedE : Environment → Nat → Bool
  | [], _ => true
  | .unknown :: _, 0 => true
  | .unknown :: env, n + 1 => fixedE env n
  | .unknownC :: env, n | .knownC _ :: env, n => fixedE env n
  | .known _ :: _, _ => false
  | .lift _ le :: env, n => le = 0 && fixedE env n

@[simp] theorem typeContext_unknownC (g : TypeGlobals) (env : Environment) (X : TypeValue)
    (τ : Nat → TypeValue) :
    typeContext g (.unknownC :: env) (push X τ) = push X (typeContext g env τ) := rfl

theorem typeContext_fixed (g : TypeGlobals) (env : Environment) (τ : Nat → TypeValue)
    (h : fixedC env n) : typeContext g env τ n = τ n := by
  induction env generalizing n τ with
  | nil => rfl
  | cons item env ih =>
    cases item with
    | unknown | known => exact ih τ h
    | unknownC => cases n with
      | zero => rfl
      | succ n => exact ih (outer 1 τ) h
    | knownC => exact absurd h Bool.false_ne_true
    | lift lc le =>
      simp only [fixedC, Bool.and_eq_true, decide_eq_true_eq] at h
      obtain ⟨rfl, h⟩ := h
      exact ih τ h

theorem context_fixed (g : Globals) (K : Value) (env : Environment) (τ : Nat → TypeValue)
    (ρ : Nat → Value) (h : fixedE env n) : context g K env τ ρ n = ρ n := by
  induction env generalizing n τ ρ with
  | nil => rfl
  | cons item env ih =>
    cases item with
    | unknown => cases n with
      | zero => rfl
      | succ n => exact ih τ (outer 1 ρ) h
    | known => exact absurd h Bool.false_ne_true
    | unknownC => exact ih (outer 1 τ) ρ h
    | knownC => exact ih τ ρ h
    | lift lc le =>
      simp only [fixedE, Bool.and_eq_true, decide_eq_true_eq] at h
      obtain ⟨rfl, h⟩ := h
      exact ih (outer lc τ) ρ h

/-- The steps that are right: the variables of what is read again are still the same
variables, and no argument is dropped. -/
def safe : Step → Bool
  | .reread env e => expVars (fixedE env) (fixedC env) e
  | .rereadCon env c => conVars (fixedC env) c
  | .drop => false

theorem conValue_reread (g : TypeGlobals) (h : safe (.rereadCon env c)) (τ : Nat → TypeValue) :
    conValue g c (typeContext g env τ) = conValue g c τ :=
  conValue_agree g c h fun _ hi => typeContext_fixed g env τ hi

theorem value_reread (g : Globals) (K : Value) (h : safe (.reread env e)) (τ : Nat → TypeValue)
    (ρ : Nat → Value) :
    value g K e (typeContext g.types env τ) (context g K env τ ρ) = value g K e τ ρ :=
  value_agree g K e h (fun _ hi => typeContext_fixed g.types env τ hi)
    fun _ hi => context_fixed g K env τ ρ hi

-- ---------------------------------------------------------------------------
-- Types
-- ---------------------------------------------------------------------------

section
variable (g : TypeGlobals)

theorem findCon_value {simplify : Environment → Constructor → Option Constructor}
    (ih : ∀ env c c', simplify env c = some c' → ∀ τ,
      conValue g c' τ = conValue g c (typeContext g env τ))
    (h : findCon simplify env nOrig nRem nudge liftC = some c')
    (hn : (nOrig : Int) + nudge = liftC + nRem) (τ : Nat → TypeValue) :
    conValue g c' τ = typeContext g env (outer liftC τ) nRem := by
  induction env generalizing nRem nudge liftC with
  | nil =>
    simp only [findCon, Option.some.injEq] at h
    subst h
    rw [hn]
    exact congrArg τ (Nat.add_comm liftC nRem)
  | cons item env ihenv =>
    cases item with
    | unknown | known => exact ihenv h hn
    | unknownC =>
      simp only [findCon] at h
      split at h
      · subst nRem
        cases h
        rw [hn]
        exact congrArg τ (Nat.zero_add liftC).symm
      · obtain ⟨n, rfl⟩ := Nat.exists_eq_succ_of_ne_zero ‹_›
        have := ihenv h (by omega)
        rw [this, Nat.add_comm, ← outer_outer]
        rfl
    | knownC c =>
      simp only [findCon] at h
      split at h
      · subst nRem
        exact ih _ _ _ h τ
      · obtain ⟨n, rfl⟩ := Nat.exists_eq_succ_of_ne_zero ‹_›
        exact ihenv h (by omega)
    | lift lc le =>
      simp only [findCon] at h
      have := ihenv h (by omega)
      rw [this, Nat.add_comm, ← outer_outer]
      rfl

/-- Simplification gives a type that means what the given one means in the environment. -/
theorem simplifyCon_value (h : simplifyCon safe fuel env c = some c') (τ : Nat → TypeValue) :
    conValue g c' τ = conValue g c (typeContext g env τ) := by
  induction fuel generalizing env c c' τ with
  | zero => cases h
  | succ fuel ih =>
    cases c with
    | rel n => exact findCon_value g (fun _ _ _ h τ => ih h τ) h (by simp) τ
    | named | ffi | name | unit | map =>
      cases h
      rfl
    | tFun c1 c2 =>
      simp only [simplifyCon, Option.bind_eq_bind, Option.bind_eq_some_iff] at h
      obtain ⟨d1, h1, d2, h2, ⟨⟩⟩ := h
      simp only [conValue, ih h1, ih h2]
    | tKFun x c | tRecord c | kAbs x c =>
      simp only [simplifyCon, Option.bind_eq_bind, Option.bind_eq_some_iff] at h
      obtain ⟨d, hd, ⟨⟩⟩ := h
      simp only [conValue, ih hd]
    | tCFun x k c | abs x k c =>
      simp only [simplifyCon, Option.bind_eq_bind, Option.bind_eq_some_iff] at h
      obtain ⟨d, hd, ⟨⟩⟩ := h
      simp only [conValue, ih hd, typeContext_unknownC]
    | app c1 c2 =>
      simp only [simplifyCon, Option.bind_eq_bind, Option.bind_eq_some_iff] at h
      obtain ⟨f, hf, arg, harg, h⟩ := h
      have hvalue : conValue g (.app c1 c2) (typeContext g env τ) = conValue g (.app f arg) τ := by
        simp only [conValue, ih hf, ih harg]
      rw [hvalue]
      split at h
      · obtain ⟨hbody, h⟩ := guard_bind_eq_some.mp h
        obtain ⟨harg, h⟩ := guard_bind_eq_some.mp h
        rw [ih h]
        simp only [typeContext, conValue, conValue_reread g harg]
        have := conValue_reread g hbody (push (conValue g arg τ) τ)
        rw [typeContext_unknownC] at this
        rw [this, app_typeArrow (denotes_conValue g _)]
      · split at h
        · cases h
          rw [conValue_map]
          exact (mapRow_nil _).symm
        · cases h
          rw [conValue_map]
          exact (mapRow_nil _).symm
        · obtain ⟨hsafe, h⟩ := guard_bind_eq_some.mp h
          rw [ih h, conValue_reread g hsafe, conValue_map_cons]
          rfl
        · cases h
          rfl
      · cases h
        rfl
    | kApp c k =>
      simp only [simplifyCon, Option.bind_eq_bind, Option.bind_eq_some_iff] at h
      obtain ⟨f, hf, h⟩ := h
      have hvalue : conValue g (.kApp c k) (typeContext g env τ) = conValue g (.kApp f k) τ := by
        simp only [conValue, ih hf]
      rw [hvalue]
      split at h
      · obtain ⟨hsafe, h⟩ := guard_bind_eq_some.mp h
        rw [ih h, conValue_reread g hsafe]
        rfl
      · cases h
        rfl
    | record k fields =>
      simp only [simplifyCon, Option.bind_eq_bind, Option.bind_eq_some_iff] at h
      obtain ⟨fields', hfields, ⟨⟩⟩ := h
      have hall := mapM_eq_some_iff.mp hfields
      simp only [conValue, conFields_eq]
      congr 1
      clear hfields
      induction hall with
      | nil => rfl
      | cons hf _ ihall =>
        simp only [Option.bind_eq_some_iff] at hf
        obtain ⟨x, hx, c, hc, ⟨⟩⟩ := hf
        simp only [List.map_cons, ih hx, ih hc, ihall]
    | concat c1 c2 =>
      simp only [simplifyCon, Option.bind_eq_bind, Option.bind_eq_some_iff] at h
      obtain ⟨d1, h1, d2, h2, h⟩ := h
      have hvalue : conValue g (.concat c1 c2) (typeContext g env τ) = conValue g (.concat d1 d2) τ := by
        simp only [conValue, ih h1, ih h2]
      rw [hvalue]
      split at h
      · cases h
        simp only [conValue, conFields_eq, List.map_append, rowOf_append]
      · cases h
        exact (concatRows_nil_left _).symm
      · cases h
        exact (concatRows_nil_right _).symm
      · cases h
        rfl
    | tuple cs =>
      simp only [simplifyCon, Option.bind_eq_bind, Option.bind_eq_some_iff] at h
      obtain ⟨cs', hcs, ⟨⟩⟩ := h
      have hall := mapM_eq_some_iff.mp hcs
      simp only [conValue]
      generalize 0 = i
      clear hcs
      induction hall generalizing i with
      | nil => rfl
      | cons hc _ ihall => simp only [conItems, ih hc, ihall]
    | proj c n =>
      simp only [simplifyCon, Option.bind_eq_bind, Option.bind_eq_some_iff] at h
      obtain ⟨d, hd, h⟩ := h
      have hvalue : conValue g (.proj c n) (typeContext g env τ) = conValue g (.proj d n) τ := by
        simp only [conValue, ih hd]
      rw [hvalue]
      split at h
      · split at h
        · cases h
        · exact (conValue_proj_tuple g h τ).symm
      · cases h
        rfl

end

end UrWeb.Core.LocalReduction
