import UrWeb.Core.LocalReduction
import Mathlib.Data.ENat.Basic

/-!
# Constant arguments of a recursive group

The specialiser copies a function for the function-valued arguments it is
called with. How many leading arguments it may fix in a recursive function is
the least number of leading arguments that the recursive calls of its group
hand on unchanged.
-/

namespace UrWeb.Core

-- ---------------------------------------------------------------------------
-- Applications of a name
-- ---------------------------------------------------------------------------

/-- An application with a name at its head. -/
structure AppSpine where
  functionId : Nat
  constructorArgs : List Constructor
  valueArgs : List Expression

def getAppInner : Expression → Option AppSpine
  | .named f => some { functionId := f, constructorArgs := [], valueArgs := [] }
  | .app f a => (getAppInner f).map fun s => { s with valueArgs := s.valueArgs ++ [a] }
  | .cApp f c => (getAppInner f).map fun s => { s with constructorArgs := s.constructorArgs ++ [c] }
  | _ => none

def getApp (e : Expression) : Option AppSpine :=
  match getAppInner e with
  | none => none
  | some s => if s.valueArgs.isEmpty then none else some s

theorem getAppInner_size (h : getAppInner e = some s) : sizeOf s.valueArgs ≤ sizeOf e := by
  induction e generalizing s with
  | named n =>
    cases h
    simp
  | app f a ihf _ =>
    obtain ⟨s', hs', rfl⟩ := Option.map_eq_some_iff.mp h
    have hf := ihf hs'
    have happ : ∀ l : List Expression, sizeOf (l ++ [a]) = sizeOf l + sizeOf a + 1 := by
      intro l
      induction l with
      | nil => simp
      | cons x l ih => simp [ih]; omega
    simp only [happ, Expression.app.sizeOf_spec]
    omega
  | cApp f c ih =>
    obtain ⟨s', hs', rfl⟩ := Option.map_eq_some_iff.mp h
    have hf := ih hs'
    simp only [Expression.cApp.sizeOf_spec]
    omega
  | _ => cases h

theorem getApp_some (h : getApp e = some s) : getAppInner e = some s ∧ s.valueArgs ≠ [] := by
  unfold getApp at h
  cases hi : getAppInner e with
  | none => simp [hi] at h
  | some s' =>
    simp only [hi, Option.ite_none_left_eq_some, List.isEmpty_iff, Option.some.injEq] at h
    obtain ⟨hne, rfl⟩ := h
    exact ⟨rfl, hne⟩

theorem getApp_size (h : getApp e = some s) : sizeOf s.valueArgs ≤ sizeOf e :=
  getAppInner_size (getApp_some h).1

theorem spine_smaller (h : getApp e = some s) :
    Prod.Lex (· < ·) (· < ·) (sizeOf s.valueArgs, 0) (sizeOf e, 1) := by
  obtain hlt | heq := Nat.lt_or_eq_of_le (getApp_size h)
  · exact Prod.Lex.left _ _ hlt
  · rw [heq]
    exact Prod.Lex.right _ Nat.zero_lt_one

-- ---------------------------------------------------------------------------
-- The scan
-- ---------------------------------------------------------------------------

/-- What the scan answers where nothing limits the number. The source writes `usize::MAX`,
which no list of arguments is long enough to reach. -/
def maxInt : ℕ∞ := ⊤

/-- The minimum that can be computed. -/
instance (priority := 2000) minInt : Min ℕ∞ := LinearOrder.toMin

section
variable (enclosing : List Nat)

mutual
/-- The least number of leading arguments handed on by the recursive calls in `e`, which
stands under `depth` variables of the function. -/
def ca (depth : Nat) (e : Expression) : ℕ∞ :=
  match e with
  | .prim _ | .rel _ => maxInt
  | .named n => if n ∈ enclosing then 0 else maxInt
  | .constructor _ _ _ none => maxInt
  | .constructor _ _ _ (some arg) => ca depth arg
  | .ffi _ _ => maxInt
  | .ffiApp _ _ ecs => caArgs depth maxInt ecs
  | .app e1 e2 =>
    match _h : getApp (.app e1 e2) with
    | none => min (ca depth e1) (ca depth e2)
    | some app =>
      if app.functionId ∉ enclosing then min (ca depth e1) (ca depth e2)
      else visitArgs depth 0 app.valueArgs
  | .abs _ _ _ body => ca (depth + 1) body
  | .cApp e1 _ | .kApp e1 _ => ca depth e1
  | .cAbs _ _ body | .kAbs _ body => ca depth body
  | .record fields => caFields depth maxInt fields
  | .field e1 _ _ => ca depth e1
  | .concat e1 _ e2 _ => min (ca depth e1) (ca depth e2)
  | .cut e1 _ _ | .cutMulti e1 _ _ => ca depth e1
  | .case e1 arms _ => caArms depth (ca depth e1) arms
  | .write e1 => ca depth e1
  | .closure _ es => caList depth maxInt es
  | .letIn _ _ e1 e2 => min (ca depth e1) (ca (depth + 1) e2)
  | .serverCall _ es _ _ => caList depth maxInt es
termination_by (sizeOf e, 1)
decreasing_by
  all_goals first
    | (apply Prod.Lex.left; simp; done)
    | (apply Prod.Lex.left; simp; omega)
    | exact spine_smaller ‹_›

/-- An argument that is the parameter of its place is handed on: what follows the first
other one is searched for further calls. -/
def visitArgs (depth count : Nat) (args : List Expression) : ℕ∞ :=
  match args with
  | [] => count
  | .rel n :: rest =>
    if depth > count ∧ n = depth - 1 - count then visitArgs depth (count + 1) rest
    else caList depth count rest
  | _ :: rest => caList depth count rest
termination_by (sizeOf args, 0)

def caList (depth : Nat) (d : ℕ∞) (es : List Expression) : ℕ∞ :=
  match es with
  | [] => d
  | e :: es => caList depth (min d (ca depth e)) es
termination_by (sizeOf es, 0)

def caArgs (depth : Nat) (d : ℕ∞) (args : List (Expression × Constructor)) : ℕ∞ :=
  match args with
  | [] => d
  | (e, _) :: args => caArgs depth (min d (ca depth e)) args
termination_by (sizeOf args, 0)

def caFields (depth : Nat) (d : ℕ∞) (fields : List (Constructor × Expression × Constructor)) : ℕ∞ :=
  match fields with
  | [] => d
  | (_, e, _) :: fields => caFields depth (min d (ca depth e)) fields
termination_by (sizeOf fields, 0)

def caArms (depth : Nat) (d : ℕ∞) (arms : List (Pattern × Expression)) : ℕ∞ :=
  match arms with
  | [] => d
  | (p, body) :: arms => caArms depth (min d (ca (depth + LocalReduction.patBindsN p) body)) arms
termination_by (sizeOf arms, 0)
end

def enterAbs (depth : Nat) : Expression → ℕ∞
  | .abs _ _ _ body => enterAbs (depth + 1) body
  | e => ca enclosing depth e

def calcConstArgs (e : Expression) : ℕ∞ := enterAbs enclosing 0 e

end

/-- The number recorded for every member of a group, or for a single function. -/
def constArgs (vis : List ValBinding) : ℕ∞ :=
  ((vis.map fun vi => calcConstArgs (vis.map ValBinding.id) vi.body).min?).getD 0

end UrWeb.Core
