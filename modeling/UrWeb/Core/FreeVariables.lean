import Mathlib.Algebra.GroupWithZero.Nat
import UrWeb.Core.DenotationLaws
import UrWeb.Core.LocalReduction

/-!
# Variables and what they mean

What a term means depends on its free variables only, and shifting them reads
the same values further up.
-/

namespace UrWeb.Core.Denotation

open GraphModel LocalReduction

/-- What holds of the variables outside `k` binders, and of those they bind. -/
def under (k : Nat) (p : Nat → Bool) (n : Nat) : Bool := n < k || p (n - k)

mutual
/-- Whether all free variables satisfy `p`. -/
def conVars (p : Nat → Bool) : Constructor → Bool
  | .rel n => p n
  | .tFun c1 c2 | .app c1 c2 | .concat c1 c2 => conVars p c1 && conVars p c2
  | .tCFun _ _ c | .abs _ _ c => conVars (under 1 p) c
  | .tKFun _ c | .tRecord c | .kAbs _ c | .kApp c _ | .proj c _ => conVars p c
  | .named _ | .ffi _ _ | .name _ | .map _ _ | .unit => true
  | .record _ fields => conFieldVars p fields
  | .tuple cs => conListVars p cs
def conFieldVars (p : Nat → Bool) : List (Constructor × Constructor) → Bool
  | [] => true
  | (c1, c2) :: fields => conVars p c1 && conVars p c2 && conFieldVars p fields
def conListVars (p : Nat → Bool) : List Constructor → Bool
  | [] => true
  | c :: cs => conVars p c && conListVars p cs
end

mutual
/-- Whether all free variables satisfy `pE`, and those for types `pC`. Only types that
matter to the meaning are looked at. -/
def expVars (pE pC : Nat → Bool) : Expression → Bool
  | .prim _ | .named _ | .ffi _ _ => true
  | .rel n => pE n
  | .constructor _ _ _ payload => payloadVars pE pC payload
  | .ffiApp _ _ args => argVars pE pC args
  | .app e1 e2 | .concat e1 _ e2 _ => expVars pE pC e1 && expVars pE pC e2
  | .abs _ _ _ e => expVars (under 1 pE) pC e
  | .cApp e c | .field e c _ | .cut e c _ | .cutMulti e c _ => expVars pE pC e && conVars pC c
  | .cAbs _ _ e => expVars pE (under 1 pC) e
  | .kApp e _ | .kAbs _ e | .write e => expVars pE pC e
  | .record fields => fieldVars pE pC fields
  | .case disc arms _ => expVars pE pC disc && armVars pE pC arms
  | .closure _ es | .serverCall _ es _ _ => listVars pE pC es
  | .letIn _ _ e1 e2 => expVars pE pC e1 && expVars (under 1 pE) pC e2
def payloadVars (pE pC : Nat → Bool) : Option Expression → Bool
  | none => true
  | some e => expVars pE pC e
def argVars (pE pC : Nat → Bool) : List (Expression × Constructor) → Bool
  | [] => true
  | (e, _) :: args => expVars pE pC e && argVars pE pC args
def fieldVars (pE pC : Nat → Bool) : List (Constructor × Expression × Constructor) → Bool
  | [] => true
  | (c, e, _) :: fields => conVars pC c && expVars pE pC e && fieldVars pE pC fields
def armVars (pE pC : Nat → Bool) : List (Pattern × Expression) → Bool
  | [] => true
  | (p, e) :: arms => expVars (under (patBindsN p) pE) pC e && armVars pE pC arms
def listVars (pE pC : Nat → Bool) : List Expression → Bool
  | [] => true
  | e :: es => expVars pE pC e && listVars pE pC es
end

-- ---------------------------------------------------------------------------
-- Binders
-- ---------------------------------------------------------------------------

section
variable {α : Type} {ρ ρ' : Nat → Set α}

theorem push_agree {p : Nat → Bool} (X : Set α) (h : ∀ i, p i → ρ i = ρ' i) :
    ∀ i, under 1 p i → push X ρ i = push X ρ' i
  | 0, _ => rfl
  | i + 1, hi => h i (by simpa [under] using hi)

theorem pushAll_agree {p : Nat → Bool} (Xs : List (Set α)) (h : ∀ i, p i → ρ i = ρ' i) (i : Nat)
    (hi : under Xs.length p i) : pushAll Xs ρ i = pushAll Xs ρ' i := by
  induction Xs generalizing ρ ρ' p with
  | nil => exact h i (by simpa [under] using hi)
  | cons X Xs ih =>
    refine ih (push_agree X h) ?_
    simp only [under, List.length_cons] at hi ⊢
    grind

/-- The variables that a shift by `delta` leads to. -/
def skip (cutoff delta : Nat) (ρ : Nat → Set α) (i : Nat) : Set α :=
  ρ (shiftIndex i cutoff delta)

theorem push_skip (X : Set α) : push X (skip cutoff delta ρ) = skip (cutoff + 1) delta (push X ρ) := by
  funext i
  cases i with
  | zero => simp [push, skip, shiftIndex]
  | succ i =>
    simp only [push, skip, shiftIndex, Nat.add_le_add_iff_right]
    split
    · rw [show ((i + 1 : Nat) : Int) + delta = ((i + delta : Nat) : Int) + 1 by omega]
      rfl
    · rfl

theorem pushAll_skip (Xs : List (Set α)) :
    pushAll Xs (skip cutoff delta ρ) = skip (cutoff + Xs.length) delta (pushAll Xs ρ) := by
  induction Xs generalizing cutoff ρ with
  | nil => rfl
  | cons X Xs ih =>
    show pushAll Xs (push X (skip cutoff delta ρ)) = _
    rw [push_skip, ih, List.length_cons, Nat.add_assoc, Nat.add_comm 1]
    rfl

end

-- ---------------------------------------------------------------------------
-- Patterns
-- ---------------------------------------------------------------------------

def PatternConstructor.untyped : PatternConstructor → PatternConstructor
  | .var n => .var n
  | .ffi m datatyp params con _ kind => .ffi m datatyp params con none kind

mutual
/-- A pattern without its types. -/
def untyped : Pattern → Pattern
  | .var x _ => .var x .unit
  | .prim p => .prim p
  | .constructor dk pc _ sub => .constructor dk (PatternConstructor.untyped pc) [] (untypedSub sub)
  | .record fields => .record (untypedFields fields)
def untypedSub : Option Pattern → Option Pattern
  | none => none
  | some p => some (untyped p)
def untypedFields :
    List (String × Pattern × Constructor) → List (String × Pattern × Constructor)
  | [] => []
  | (x, p, _) :: fields => (x, untyped p, .unit) :: untypedFields fields
end

theorem untypedSub_eq (sub : Option Pattern) : untypedSub sub = sub.map untyped := by
  cases sub <;> rfl

theorem untypedFields_eq (fields : List (String × Pattern × Constructor)) :
    untypedFields fields = fields.map fun f => (f.1, untyped f.2.1, .unit) := by
  induction fields with
  | nil => rfl
  | cons f fields ih => simp [untypedFields, ih]

@[simp] theorem conTag_untyped (pc : PatternConstructor) :
    conTag (PatternConstructor.untyped pc) = conTag pc := by
  cases pc <;> rfl

theorem accepts_untyped (p : Pattern) (X : Value) : Accepts (untyped p) X ↔ Accepts p X := by
  induction p generalizing X with
  | var x t => rfl
  | prim p => rfl
  | constructor dk pc args sub ih =>
    cases sub with
    | none => simp [untyped, untypedSub, Accepts, SubAccepts]
    | some p => simp [untyped, untypedSub, Accepts, SubAccepts, ih p rfl]
  | record fields ih =>
    simp only [untyped, untypedFields_eq, Accepts, fieldsAccept_iff, List.forall_mem_map]
    exact and_congr_right fun _ => forall₂_congr fun f hf => ih f hf _

theorem rejects_untyped (p : Pattern) (X : Value) : Rejects (untyped p) X ↔ Rejects p X := by
  induction p generalizing X with
  | var x t => rfl
  | prim p => rfl
  | constructor dk pc args sub ih =>
    cases sub with
    | none => simp [untyped, untypedSub, Rejects, SubRejects]
    | some p => simp [untyped, untypedSub, Rejects, SubRejects, ih p rfl]
  | record fields ih =>
    simp only [untyped, untypedFields_eq, Rejects, fieldsReject_iff, List.mem_map,
      exists_exists_and_eq_and]
    exact or_congr_right (exists_congr fun f => and_congr_right fun hf => ih f hf _)

theorem fieldsBind_eq (fields : List (String × Pattern × Constructor)) (X : Value) :
    fieldsBind fields X = fields.flatMap fun f => binds f.2.1 {v | .field f.1 v ∈ X} := by
  induction fields with
  | nil => rfl
  | cons f fields ih => simp [fieldsBind, ih]

theorem fieldsBindN_eq (fields : List (String × Pattern × Constructor)) :
    fieldsBindN fields = (fields.map fun f => patBindsN f.2.1).sum := by
  induction fields with
  | nil => rfl
  | cons f fields ih => simp [fieldsBindN, ih]

theorem binds_untyped (p : Pattern) (X : Value) : binds (untyped p) X = binds p X := by
  induction p generalizing X with
  | var x t => rfl
  | prim p => rfl
  | constructor dk pc args sub ih =>
    cases sub with
    | none => simp [untyped, untypedSub, binds, subBinds]
    | some p => simp [untyped, untypedSub, binds, subBinds, ih p rfl]
  | record fields ih =>
    simp only [untyped, untypedFields_eq, binds, fieldsBind_eq, List.flatMap_map]
    exact List.flatMap_congr fun f hf => ih f hf _

theorem length_binds (p : Pattern) (X : Value) : (binds p X).length = patBindsN p := by
  induction p generalizing X with
  | var x t => rfl
  | prim p => rfl
  | constructor dk pc args sub ih =>
    cases sub with
    | none => rfl
    | some p => exact ih p rfl _
  | record fields ih =>
    simp only [binds, fieldsBind_eq, patBindsN, fieldsBindN_eq, List.length_flatMap]
    exact congrArg List.sum (List.map_congr_left fun f hf => ih f hf _)

section
variable {p p' : Pattern} (h : untyped p = untyped p')
include h

theorem accepts_congr : Accepts p X ↔ Accepts p' X := by
  rw [← accepts_untyped, h, accepts_untyped]

theorem rejects_congr : Rejects p X ↔ Rejects p' X := by
  rw [← rejects_untyped, h, rejects_untyped]

theorem binds_congr (X : Value) : binds p X = binds p' X := by
  rw [← binds_untyped, h, binds_untyped]

theorem patBindsN_congr : patBindsN p = patBindsN p' := by
  rw [← length_binds p ∅, binds_congr h, length_binds]

end

-- ---------------------------------------------------------------------------
-- Agreement on the free variables
-- ---------------------------------------------------------------------------

theorem conFieldVars_eq (p : Nat → Bool) (fields : List (Constructor × Constructor)) :
    conFieldVars p fields = fields.all fun f => conVars p f.1 && conVars p f.2 := by
  induction fields with
  | nil => rfl
  | cons f fields ih => simp [conFieldVars, ih]

theorem conValue_agree (g : TypeGlobals) (c : Constructor) {p : Nat → Bool}
    {τ τ' : Nat → TypeValue} (hc : conVars p c) (h : ∀ i, p i → τ i = τ' i) :
    conValue g c τ = conValue g c τ' := by
  induction c generalizing p τ τ' with
  | rel n => exact h n hc
  | named | ffi | name | map | unit => rfl
  | tFun c1 c2 ih1 ih2 | app c1 c2 ih1 ih2 | concat c1 c2 ih1 ih2 =>
    simp only [conVars, Bool.and_eq_true] at hc
    simp only [conValue, ih1 hc.1 h, ih2 hc.2 h]
  | tCFun x k c ih | abs x k c ih =>
    simp only [conValue, ih hc (push_agree _ h)]
  | tKFun x c ih | tRecord c ih | kAbs x c ih | kApp c k ih | proj c n ih =>
    simp only [conValue, ih hc h]
  | record k fields ih =>
    simp only [conVars, conFieldVars_eq, List.all_eq_true, Bool.and_eq_true] at hc
    simp only [conValue, conFields_eq]
    exact congrArg rowOf <| List.map_congr_left fun f hf =>
      Prod.ext ((ih f hf).1 (hc f hf).1 h) ((ih f hf).2 (hc f hf).2 h)
  | tuple cs ih =>
    simp only [conVars] at hc
    simp only [conValue]
    generalize 0 = i
    induction cs generalizing i with
    | nil => rfl
    | cons c cs ihcs =>
      simp only [conListVars, Bool.and_eq_true] at hc
      simp only [List.forall_mem_cons] at ih
      simp only [conItems, ih.1 hc.1 h, ihcs ih.2 hc.2]

theorem payloadVars_eq (pE pC : Nat → Bool) (payload : Option Expression) :
    payloadVars pE pC payload = payload.all fun e => expVars pE pC e := by
  cases payload <;> rfl

theorem argVars_eq (pE pC : Nat → Bool) (args : List (Expression × Constructor)) :
    argVars pE pC args = args.all fun a => expVars pE pC a.1 := by
  induction args with
  | nil => rfl
  | cons a args ih => simp [argVars, ih]

theorem fieldVars_eq (pE pC : Nat → Bool) (fields : List (Constructor × Expression × Constructor)) :
    fieldVars pE pC fields = fields.all fun f => conVars pC f.1 && expVars pE pC f.2.1 := by
  induction fields with
  | nil => rfl
  | cons f fields ih => simp [fieldVars, ih]

theorem listVars_eq (pE pC : Nat → Bool) (es : List Expression) :
    listVars pE pC es = es.all fun e => expVars pE pC e := by
  induction es with
  | nil => rfl
  | cons e es ih => simp [listVars, ih]

theorem value_agree (g : Globals) (K : Value) (e : Expression) {pE pC : Nat → Bool}
    {τ τ' : Nat → TypeValue} {ρ ρ' : Nat → Value} (he : expVars pE pC e)
    (hτ : ∀ i, pC i → τ i = τ' i) (hρ : ∀ i, pE i → ρ i = ρ' i) :
    value g K e τ ρ = value g K e τ' ρ' := by
  induction e generalizing pE pC τ τ' ρ ρ' with
  | rel n => exact hρ n he
  | prim | named | ffi => rfl
  | constructor dk pc args payload ih =>
    cases payload with
    | none => rfl
    | some e => simp only [value, payloadValue, ih e rfl he hτ hρ]
  | ffiApp m x args ih =>
    simp only [expVars, argVars_eq, List.all_eq_true] at he
    simp only [value, argValues_eq]
    exact congrArg _ (List.map_congr_left fun a ha => ih a ha (he a ha) hτ hρ)
  | app e1 e2 ih1 ih2 | concat e1 _ e2 _ ih1 ih2 =>
    simp only [expVars, Bool.and_eq_true] at he
    simp only [value, ih1 he.1 hτ hρ, ih2 he.2 hτ hρ]
  | abs x dom ran e ih => simp only [value, ih he hτ (push_agree _ hρ)]
  | cAbs x k e ih => simp only [value, ih he (push_agree _ hτ) hρ]
  | cApp e c ih | field e c info ih | cut e c info ih | cutMulti e c info ih =>
    simp only [expVars, Bool.and_eq_true] at he
    simp only [value, ih he.1 hτ hρ, conValue_agree g.types c he.2 hτ]
  | kAbs x e ih | kApp e k ih | write e ih => simp only [value, ih he hτ hρ]
  | record fields ih =>
    simp only [expVars, fieldVars_eq, List.all_eq_true, Bool.and_eq_true] at he
    simp only [value, fieldValues_eq]
    exact congrArg _ <| List.map_congr_left fun f hf =>
      Prod.ext (conValue_agree g.types f.1 (he f hf).1 hτ) (ih f hf (he f hf).2 hτ hρ)
  | case disc arms info ihd ih =>
    simp only [expVars, Bool.and_eq_true] at he
    simp only [value, ihd he.1 hτ hρ]
    replace he := he.2
    induction arms with
    | nil => rfl
    | cons arm arms iha =>
      simp only [armVars, Bool.and_eq_true] at he
      simp only [List.forall_mem_cons] at ih
      have hbody (X : Value) : value g K arm.2 τ (pushAll (binds arm.1 X) ρ) =
          value g K arm.2 τ' (pushAll (binds arm.1 X) ρ') :=
        ih.1 he.1 hτ (length_binds arm.1 X ▸ pushAll_agree (binds arm.1 X) hρ)
      simp only [armsValue, hbody, iha ih.2 he.2]
  | closure n es ih | serverCall n es t fm ih =>
    simp only [expVars, listVars_eq, List.all_eq_true] at he
    simp only [value, listValues_eq]
    exact congrArg _ (List.map_congr_left fun e hmem => ih e hmem (he e hmem) hτ hρ)
  | letIn x t e1 e2 ih1 ih2 =>
    simp only [expVars, Bool.and_eq_true] at he
    simp only [value, ih1 he.1 hτ hρ, ih2 he.2 hτ (push_agree _ hρ)]

-- ---------------------------------------------------------------------------
-- Shifting
-- ---------------------------------------------------------------------------

theorem shiftConFields_eq (delta : Int) (fields : List (Constructor × Constructor)) (cut : Nat) :
    shiftConFields delta fields cut =
      fields.map fun f => (shiftCon delta f.1 cut, shiftCon delta f.2 cut) := by
  induction fields with
  | nil => rfl
  | cons f fields ih => simp [shiftConFields, ih]

theorem conValue_shift (g : TypeGlobals) (delta : Nat) (c : Constructor) (cut : Nat)
    (τ : Nat → TypeValue) :
    conValue g (shiftCon delta c cut) τ = conValue g c (skip cut delta τ) := by
  induction c generalizing cut τ with
  | rel | named | ffi | name | map | unit => rfl
  | tFun c1 c2 ih1 ih2 | app c1 c2 ih1 ih2 | concat c1 c2 ih1 ih2 =>
    simp only [shiftCon, conValue, ih1, ih2]
  | tCFun x k c ih | abs x k c ih => simp only [shiftCon, conValue, ih, push_skip]
  | tKFun x c ih | tRecord c ih | kAbs x c ih | kApp c k ih | proj c n ih =>
    simp only [shiftCon, conValue, ih]
  | record k fields ih =>
    simp only [shiftCon, conValue, conFields_eq, shiftConFields_eq, List.map_map]
    exact congrArg rowOf (List.map_congr_left fun f hf =>
      Prod.ext ((ih f hf).1 cut τ) ((ih f hf).2 cut τ))
  | tuple cs ih =>
    simp only [shiftCon, conValue]
    generalize 0 = i
    induction cs generalizing i with
    | nil => rfl
    | cons c cs ihcs =>
      simp only [List.forall_mem_cons] at ih
      simp only [shiftConList, conItems, ih.1, ihcs ih.2]

@[simp] theorem conTag_shiftPatCon (delta : Int) (cut : Nat) (pc : PatternConstructor) :
    conTag (shiftPatCon delta cut pc) = conTag pc := by
  cases pc <;> rfl

theorem untyped_shiftPatCon (delta : Int) (cut : Nat) (pc : PatternConstructor) :
    PatternConstructor.untyped (shiftPatCon delta cut pc) = PatternConstructor.untyped pc := by
  cases pc <;> rfl

theorem shiftPatFields_eq (delta : Int) (cut : Nat)
    (fields : List (String × Pattern × Constructor)) :
    shiftPatFields delta cut fields =
      fields.map fun f => (f.1, shiftPat delta cut f.2.1, shiftCon delta f.2.2 cut) := by
  induction fields with
  | nil => rfl
  | cons f fields ih => simp [shiftPatFields, ih]

theorem untyped_shiftPat (delta : Int) (cut : Nat) (p : Pattern) :
    untyped (shiftPat delta cut p) = untyped p := by
  induction p with
  | var x t => rfl
  | prim p => rfl
  | constructor dk pc args sub ih =>
    cases sub with
    | none => simp [shiftPat, shiftSubPat, untyped, untyped_shiftPatCon]
    | some p => simp [shiftPat, shiftSubPat, untyped, untyped_shiftPatCon, untypedSub, ih p rfl]
  | record fields ih =>
    simp only [shiftPat, shiftPatFields_eq, untyped, untypedFields_eq, List.map_map]
    exact congrArg _ (List.map_congr_left fun f hf => by simp [ih f hf])

section
variable (deltaE deltaC : Int)

theorem shiftPayload_eq (payload : Option Expression) (cutE cutC : Nat) :
    shiftPayload deltaE deltaC payload cutE cutC =
      payload.map fun e => shiftExp deltaE deltaC e cutE cutC := by
  cases payload <;> rfl

theorem shiftArgs_eq (args : List (Expression × Constructor)) (cutE cutC : Nat) :
    shiftArgs deltaE deltaC args cutE cutC =
      args.map fun a => (shiftExp deltaE deltaC a.1 cutE cutC, shiftCon deltaC a.2 cutC) := by
  induction args with
  | nil => rfl
  | cons a args ih => simp [shiftArgs, ih]

theorem shiftFields_eq (fields : List (Constructor × Expression × Constructor)) (cutE cutC : Nat) :
    shiftFields deltaE deltaC fields cutE cutC = fields.map fun f =>
      (shiftCon deltaC f.1 cutC, shiftExp deltaE deltaC f.2.1 cutE cutC, shiftCon deltaC f.2.2 cutC) := by
  induction fields with
  | nil => rfl
  | cons f fields ih => simp [shiftFields, ih]

theorem shiftList_eq (es : List Expression) (cutE cutC : Nat) :
    shiftList deltaE deltaC es cutE cutC = es.map fun e => shiftExp deltaE deltaC e cutE cutC := by
  induction es with
  | nil => rfl
  | cons e es ih => simp [shiftList, ih]

end

theorem value_shift (g : Globals) (K : Value) (deltaE deltaC : Nat) (e : Expression)
    (cutE cutC : Nat) (τ : Nat → TypeValue) (ρ : Nat → Value) :
    value g K (shiftExp deltaE deltaC e cutE cutC) τ ρ =
      value g K e (skip cutC deltaC τ) (skip cutE deltaE ρ) := by
  induction e generalizing cutE cutC τ ρ with
  | prim | rel | named | ffi => rfl
  | constructor dk pc args payload ih =>
    cases payload with
    | none => simp [shiftExp, shiftPayload, value, payloadValue]
    | some e => simp [shiftExp, shiftPayload, value, payloadValue, ih e rfl]
  | ffiApp m x args ih =>
    simp only [shiftExp, shiftArgs_eq, value, argValues_eq, List.map_map]
    exact congrArg _ (List.map_congr_left fun a ha => ih a ha cutE cutC τ ρ)
  | app e1 e2 ih1 ih2 | concat e1 _ e2 _ ih1 ih2 => simp only [shiftExp, value, ih1, ih2]
  | abs x dom ran e ih | cAbs x k e ih => simp only [shiftExp, value, ih, push_skip]
  | cApp e c ih | field e c info ih | cut e c info ih | cutMulti e c info ih =>
    simp only [shiftExp, value, ih, conValue_shift]
  | kAbs x e ih | kApp e k ih | write e ih => simp only [shiftExp, value, ih]
  | record fields ih =>
    simp only [shiftExp, shiftFields_eq, value, fieldValues_eq, List.map_map]
    exact congrArg _ (List.map_congr_left fun f hf =>
      Prod.ext (conValue_shift g.types deltaC f.1 cutC τ) (ih f hf cutE cutC τ ρ))
  | case disc arms info ihd ih =>
    simp only [shiftExp, value, ihd]
    induction arms with
    | nil => rfl
    | cons arm arms iha =>
      simp only [List.forall_mem_cons] at ih
      have hp := untyped_shiftPat deltaC cutC arm.1
      simp only [shiftArms, armsValue, accepts_congr hp, rejects_congr hp, binds_congr hp, ih.1,
        iha ih.2, pushAll_skip, length_binds]
  | closure n es ih | serverCall n es t fm ih =>
    simp only [shiftExp, shiftList_eq, value, listValues_eq, List.map_map]
    exact congrArg _ (List.map_congr_left fun e he => ih e he cutE cutC τ ρ)
  | letIn x t e1 e2 ih1 ih2 => simp only [shiftExp, value, ih1, ih2, push_skip]

end UrWeb.Core.Denotation
