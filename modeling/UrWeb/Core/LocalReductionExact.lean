import UrWeb.Core.LocalReductionSound

/-!
# When local reduction preserves meaning

The code takes every step. Where each step it takes is one that keeps variables
what they are, the result means what the expression means.
-/

namespace UrWeb.Core.LocalReduction

open GraphModel Denotation

-- ---------------------------------------------------------------------------
-- Taking more steps
-- ---------------------------------------------------------------------------

/-- Whatever the first computation ends with, the second one ends with. -/
def Extends {α : Type} (x y : Option α) : Prop := ∀ a, x = some a → y = some a

namespace Extends

theorem refl {α : Type} (x : Option α) : Extends x x := fun _ h => h

theorem bind {α β : Type} {x y : Option α} {f f' : α → Option β} (h : Extends x y)
    (hf : ∀ a, Extends (f a) (f' a)) : Extends (x >>= f) (y >>= f') := by
  intro b hb
  obtain ⟨a, ha, hb⟩ := Option.bind_eq_some_iff.mp hb
  exact Option.bind_eq_some_iff.mpr ⟨a, h a ha, hf a b hb⟩

theorem guard {α : Type} {b b' : Bool} {x y : Option α} (hb : b' = true) (h : Extends x y) :
    Extends (do guard (b = true); x) (do guard (b' = true); y) := fun a ha =>
  guard_bind_eq_some.mpr ⟨hb, h a (guard_bind_eq_some.mp ha).2⟩

theorem mapM {α β : Type} {f f' : α → Option β} (h : ∀ a, Extends (f a) (f' a)) (l : List α) :
    Extends (l.mapM f) (l.mapM f') := fun _ hl =>
  mapM_eq_some_iff.mpr ((mapM_eq_some_iff.mp hl).imp fun a b => h a b)

theorem optionMapM {α β : Type} {f f' : α → Option β} (h : ∀ a, Extends (f a) (f' a))
    (x : Option α) : Extends (x.mapM f) (x.mapM f') := by
  cases x with
  | none => exact refl _
  | some a =>
    intro b hb
    obtain ⟨c, hc, rfl⟩ := Option.map_eq_some_iff.mp hb
    exact Option.map_eq_some_iff.mpr ⟨c, h a c hc, rfl⟩

end Extends

section
variable (allowed : Step → Bool) {fuel fuel' : Nat}

theorem findCon_extends {simplify simplify' : Environment → Constructor → Option Constructor}
    (h : ∀ env c, Extends (simplify env c) (simplify' env c)) (env : Environment)
    (nOrig nRem : Nat) (nudge : Int) (liftC : Nat) :
    Extends (findCon simplify env nOrig nRem nudge liftC)
      (findCon simplify' env nOrig nRem nudge liftC) := by
  induction env generalizing nRem nudge liftC with
  | nil => exact .refl _
  | cons item env ih =>
    cases item with
    | unknown | known | lift => exact ih _ _ _
    | unknownC =>
      simp only [findCon]
      split
      · exact .refl _
      · exact ih _ _ _
    | knownC =>
      simp only [findCon]
      split
      · exact h _ _
      · exact ih _ _ _

theorem simplifyCon_extends (hfuel : fuel ≤ fuel') (env : Environment) (c : Constructor) :
    Extends (simplifyCon allowed fuel env c) (simplifyCon everyStep fuel' env c) := by
  induction fuel generalizing fuel' env c with
  | zero => exact fun _ h => nomatch h
  | succ fuel ih =>
    obtain ⟨fuel', rfl⟩ := Nat.exists_eq_add_one.mpr (Nat.zero_lt_of_lt hfuel)
    replace ih := ih (Nat.le_of_succ_le_succ hfuel)
    cases c with
    | rel n => exact findCon_extends ih _ _ _ _ _
    | named | ffi | name | unit | map => exact .refl _
    | tFun c1 c2 => exact (ih _ _).bind fun _ => (ih _ _).bind fun _ => .refl _
    | tKFun | tRecord | kAbs | tCFun | abs => exact (ih _ _).bind fun _ => .refl _
    | app c1 c2 =>
      refine (ih _ _).bind fun f => (ih _ _).bind fun arg => ?_
      split
      · exact .guard rfl (.guard rfl (ih _ _))
      · split
        · exact .refl _
        · exact .refl _
        · exact .guard rfl (ih _ _)
        · exact .refl _
      · exact .refl _
    | kApp c k =>
      refine (ih _ _).bind fun f => ?_
      split
      · exact .guard rfl (ih _ _)
      · exact .refl _
    | record k fields =>
      exact (Extends.mapM (fun f => (ih _ _).bind fun _ => (ih _ _).bind fun _ => .refl _) _).bind
        fun _ => .refl _
    | concat c1 c2 => exact (ih _ _).bind fun _ => (ih _ _).bind fun _ => .refl _
    | tuple cs => exact (Extends.mapM (fun c => ih _ _) _).bind fun _ => .refl _
    | proj c n => exact (ih _ _).bind fun _ => .refl _

theorem simplifyPatCon_extends (hfuel : fuel ≤ fuel') (env : Environment)
    (pc : PatternConstructor) :
    Extends (simplifyPatCon allowed fuel env pc) (simplifyPatCon everyStep fuel' env pc) := by
  cases pc with
  | var n => exact .refl _
  | ffi => exact (Extends.optionMapM (fun c => simplifyCon_extends _ hfuel _ _) _).bind fun _ => .refl _

theorem simplifyPat_extends (hfuel : fuel ≤ fuel') (env : Environment) (p : Pattern) :
    Extends (simplifyPat allowed fuel env p) (simplifyPat everyStep fuel' env p) := by
  induction p with
  | var x t => exact (simplifyCon_extends _ hfuel _ _).bind fun _ => .refl _
  | prim p => exact .refl _
  | constructor dk pc cs sub ih =>
    refine (simplifyPatCon_extends _ hfuel _ _).bind fun _ =>
      (Extends.mapM (fun c => simplifyCon_extends _ hfuel _ _) _).bind fun _ => .bind ?_ fun _ => .refl _
    cases sub with
    | none => exact .refl _
    | some p => exact (ih p rfl).bind fun _ => .refl _
  | record fields ih =>
    refine .bind ?_ fun _ => .refl _
    induction fields with
    | nil => exact .refl _
    | cons f fields ihf =>
      simp only [List.forall_mem_cons] at ih
      exact ih.1.bind fun _ => (simplifyCon_extends _ hfuel _ _).bind fun _ =>
        (ihf ih.2).bind fun _ => .refl _

theorem findExp_extends {simplify simplify' : Environment → Expression → Option Expression}
    (h : ∀ env e, Extends (simplify env e) (simplify' env e)) (env : Environment)
    (nOrig nRem : Nat) (nudge : Int) (liftC liftE : Nat) :
    Extends (findExp simplify env nOrig nRem nudge liftC liftE)
      (findExp simplify' env nOrig nRem nudge liftC liftE) := by
  induction env generalizing nRem nudge liftC liftE with
  | nil => exact .refl _
  | cons item env ih =>
    cases item with
    | unknownC | knownC | lift => exact ih _ _ _ _
    | unknown =>
      simp only [findExp]
      split
      · exact .refl _
      · exact ih _ _ _ _
    | known =>
      simp only [findExp]
      split
      · exact h _ _
      · exact ih _ _ _ _

theorem simplifyFieldMeta_extends (hfuel : fuel ≤ fuel') (env : Environment) (info : FieldMeta) :
    Extends (simplifyFieldMeta allowed fuel env info) (simplifyFieldMeta everyStep fuel' env info) :=
  (simplifyCon_extends _ hfuel _ _).bind fun _ => (simplifyCon_extends _ hfuel _ _).bind fun _ => .refl _

/-- The code does what it does with fewer steps and less fuel, where those are enough. -/
theorem simplifyExp_extends (hfuel : fuel ≤ fuel') (env : Environment) (e : Expression) :
    Extends (simplifyExp allowed fuel env e) (simplifyExp everyStep fuel' env e) := by
  induction fuel generalizing fuel' env e with
  | zero => exact fun _ h => nomatch h
  | succ fuel ih =>
    obtain ⟨fuel', rfl⟩ := Nat.exists_eq_add_one.mpr (Nat.zero_lt_of_lt hfuel)
    replace hfuel := Nat.le_of_succ_le_succ hfuel
    replace ih := @ih fuel' hfuel
    have hc (c : Constructor) := simplifyCon_extends allowed hfuel env c
    have hinfo (info : FieldMeta) := simplifyFieldMeta_extends allowed hfuel env info
    cases e with
    | prim | named | ffi => exact .refl _
    | rel n => exact findExp_extends ih _ _ _ _ _ _
    | constructor dk pc cs payload =>
      exact (simplifyPatCon_extends _ hfuel _ _).bind fun _ => (Extends.mapM hc _).bind fun _ =>
        (Extends.optionMapM (ih env) _).bind fun _ => .refl _
    | ffiApp m x args =>
      exact (Extends.mapM (fun a => (ih _ _).bind fun _ => (hc _).bind fun _ => .refl _) _).bind
        fun _ => .refl _
    | app e1 e2 =>
      refine (ih _ _).bind fun f => (ih _ _).bind fun arg => ?_
      split
      · split
        · exact .guard rfl (.refl _)
        · exact .guard rfl (.guard rfl (ih _ _))
      · exact .refl _
    | abs x dom ran e =>
      exact (hc _).bind fun _ => (hc _).bind fun _ => (ih _ _).bind fun _ => .refl _
    | cApp e c =>
      refine (ih _ _).bind fun f => (hc _).bind fun arg => ?_
      split
      · exact .guard rfl (.guard rfl (ih _ _))
      · exact .refl _
    | cAbs | kApp | kAbs | write => exact (ih _ _).bind fun _ => .refl _
    | record fields =>
      refine (Extends.mapM (fun f => ?_) _).bind fun _ => .refl _
      exact (hc _).bind fun _ => (ih _ _).bind fun _ => (hc _).bind fun _ => .refl _
    | field e c info | cut e c info =>
      exact (ih _ _).bind fun _ => (hc _).bind fun _ => (hinfo _).bind fun _ => .refl _
    | concat e1 c1 e2 c2 =>
      exact (ih _ _).bind fun _ => (hc _).bind fun _ => (ih _ _).bind fun _ =>
        (hc _).bind fun _ => .refl _
    | cutMulti e c info =>
      exact (ih _ _).bind fun _ => (hc _).bind fun _ => (hc _).bind fun _ => .refl _
    | case disc arms info =>
      refine (hc _).bind fun _ => (hc _).bind fun _ => (ih _ _).bind fun disc => ?_
      split
      · exact .guard (List.all_eq_true.mpr fun _ _ => rfl) (ih _ _)
      · exact (Extends.mapM (fun a => (simplifyPat_extends _ hfuel _ _).bind fun _ =>
          (ih _ _).bind fun _ => .refl _) _).bind fun _ => .refl _
    | closure n es => exact (Extends.mapM (ih env) _).bind fun _ => .refl _
    | letIn x t e1 e2 =>
      exact (hc _).bind fun _ => (ih _ _).bind fun _ => (ih _ _).bind fun _ => .refl _
    | serverCall n es t fm =>
      exact (Extends.mapM (ih env) _).bind fun _ => (hc _).bind fun _ => .refl _

end

-- ---------------------------------------------------------------------------
-- Meaning
-- ---------------------------------------------------------------------------

theorem context_mono (g : Globals) {K K' : Value} (hK : K ⊆ K') (env : Environment)
    (τ : Nat → TypeValue) (ρ : Nat → Value) (i : Nat) :
    context g K env τ ρ i ⊆ context g K' env τ ρ i := by
  induction env generalizing τ ρ i with
  | nil => exact subset_rfl
  | cons item env ih =>
    cases item with
    | unknown => cases i with
      | zero => exact subset_rfl
      | succ i => exact ih τ (outer 1 ρ) i
    | known e => cases i with
      | zero => exact value_mono g e _ hK (ih τ ρ)
      | succ i => exact ih τ ρ i
    | unknownC => exact ih (outer 1 τ) ρ i
    | knownC c => exact ih τ ρ i
    | lift lc le => exact ih (outer lc τ) (outer le ρ) i

theorem valueIn_mono (g : Globals) {K K' : Value} (hK : K ⊆ K') (env : Environment)
    (e : Expression) (τ : Nat → TypeValue) (ρ : Nat → Value) :
    valueIn g K env e τ ρ ⊆ valueIn g K' env e τ ρ :=
  value_mono g e _ hK (context_mono g hK env τ ρ)

/-- Whether the expression has a token does not depend on what is in fields of one name. -/
def Determined (g : Globals) (env : Environment) (e : Expression) (τ : Nat → TypeValue)
    (ρ : Nat → Value) (w : Token) : Prop :=
  w ∈ valueIn g Set.univ env e τ ρ → w ∈ valueIn g ∅ env e τ ρ

/-- `result` has the tokens that `e` has with the known variables substituted. -/
def KeepsMeaning (env : Environment) (e result : Expression) : Prop :=
  ∀ (g : Globals) (clash : Value) (τ : Nat → TypeValue) (ρ : Nat → Value) (w : Token),
    Determined g env e τ ρ w → (w ∈ value g clash result τ ρ ↔ w ∈ valueIn g clash env e τ ρ)

def int : Constructor := .ffi "Basis" "int"

/-- A constructor of a datatype, applied to an integer. -/
def wrapped (e : Expression) : Expression := .constructor .default (.var 7) [] (some e)

/-- `case e of C y => y` -/
def unwrapped (e : Expression) : Expression :=
  .case e [(.constructor .default (.var 7) [] (some (.var "y" int)), .rel 0)] ⟨.named 6, int⟩

/-- `(fn v => case v of C y => y) (C u)`, where `u` is bound outside. -/
def matchedVariable : Expression :=
  .app (.abs "v" (.named 6) int (unwrapped (.rel 0))) (wrapped (.rel 0))

theorem valueIn_matchedVariable (g : Globals) (K : Value) (τ : Nat → TypeValue) (ρ : Nat → Value) :
    valueIn g K [.unknown] matchedVariable τ ρ = ρ 0 := by
  show app .arrow (lam .arrow fun X => value g K (unwrapped (.rel 0)) _ (push X _)) _ = ρ 0
  rw [app_abs]
  ext w
  simp [unwrapped, wrapped, value, armsValue, payloadValue, binds, subBinds, pushAll, push, Accepts,
    SubAccepts, conTag, constructed, context]

end UrWeb.Core.LocalReduction
