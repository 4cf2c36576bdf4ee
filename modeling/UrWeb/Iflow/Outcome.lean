import UrWeb.Iflow.Flow

/-!
# Evaluations that keep to their scope

How an evaluation can end: in the environment it started in or in a longer one,
which a let, a case arm or a query leaves behind. An expression keeps to its scope
where nothing is evaluated after a part that leaves bindings behind, in the
environment that part ended in.
-/

namespace UrWeb.Iflow

open Mono

/-- Whether an evaluation can end in its own environment, whether it can end in a
longer one, and whether on the way every part has its own environment. -/
structure Outcome where
  stays : Bool
  leaves : Bool
  fine : Bool

namespace Outcome

variable (o o1 o2 : Outcome)

def ends : Bool := o.stays || o.leaves

def here : Outcome := ⟨true, false, true⟩

/-- The evaluation ends the program. -/
def stopped : Outcome := ⟨false, false, o.fine⟩

/-- The second part is evaluated in the environment of the first. -/
def saved : Outcome :=
  ⟨o1.ends && o2.stays, o1.ends && o2.leaves, o1.fine && (!o1.ends || o2.fine)⟩

/-- The second part is evaluated in the environment that the first left. -/
def chained : Outcome :=
  ⟨o1.stays && o2.stays, o1.leaves && o2.ends || o1.stays && o2.leaves,
    o1.fine && !o1.leaves && (!o1.stays || o2.fine)⟩

/-- Below `n` binders. -/
def under (n : Nat) : Outcome :=
  ⟨o.stays && n = 0, o.leaves || o.stays && n ≠ 0, o.fine⟩

def all : List Outcome → Outcome
  | [] => here
  | [o] => o
  | o :: os => o.chained (all os)

/-- One of the arms after the discriminant. -/
def arms (os : List Outcome) : Outcome :=
  ⟨os.any stays, os.any leaves, os.all fine⟩

end Outcome

mutual
/-- How `e` ends below `len` bindings. A variable out of scope has no atom, but
in a nonempty environment it gets one. The row of a query is never right. -/
def outcome : Exp → Nat → Outcome
  | .rel i, len => { Outcome.here with fine := i < len || len = 0 }
  | .con _ _ arg, len => outcomeOption arg len
  | .some _ e, len | .unop _ e, len | .field e _, len | .write e, len | .dml e _, len
  | .nextval e, len => outcome e len
  | .ffiApp _ _ args, len => .all (outcomeArgs args len)
  | .app f arg, len =>
    match f with
    | .ffi _ _ => outcome arg len
    | .error _ _ => outcome f len
    | _ => .here
  | .binop _ _ e1 e2, len | .strcat e1 e2, len | .seq e1 e2, len | .setval e1 e2, len =>
    (outcome e1 len).saved (outcome e2 len)
  | .record xets, len => .all (outcomeFields xets len)
  | .case disc arms _, len =>
    let os := outcomeArms arms len
    if os.isEmpty then (outcome disc len).stopped else (outcome disc len).chained (.arms os)
  | .error e _, len | .redirect e _, len => (outcome e len).stopped
  | .returnBlob none mimeType _, len => (outcome mimeType len).stopped
  | .returnBlob (some blob) mimeType _, len =>
    ((outcome blob len).chained (outcome mimeType len)).stopped
  | .letIn _ _ e1 e2, len => (outcome e1 len).saved ((outcome e2 (len + 1)).under 1)
  | .closure _ captured, len => .all (outcomeEnvs captured len)
  | .query _ _ body initial, len =>
    let o := (outcome initial len).saved ((outcome body (len + 2)).under 2)
    { o with fine := (outcome initial len).fine && !(outcome initial len).ends }
  | .prim _, _ | .named _, _ | .none _, _ | .ffi _ _, _ | .abs _ _ _ _, _ | .uurlify _ _ _, _
  | .javaScript _ _, _ | .signalReturn _, _ | .signalBind _ _, _ | .signalSource _, _
  | .serverCall _ _ _ _, _ | .recv _ _, _ | .sleep _, _ | .spawn _, _ => .here
def outcomeOption : Option Exp → Nat → Outcome
  | none, _ => .here
  | some e, len => outcome e len
def outcomeArgs : List (Exp × Typ) → Nat → List Outcome
  | [], _ => []
  | (e, _) :: args, len => outcome e len :: outcomeArgs args len
def outcomeFields : List (String × Exp × Typ) → Nat → List Outcome
  | [], _ => []
  | (_, e, _) :: xets, len => outcome e len :: outcomeFields xets len
def outcomeArms : List (Pat × Exp) → Nat → List Outcome
  | [], _ => []
  | (p, e) :: arms, len =>
    (outcome e (len + patDepth p)).under (patDepth p) :: outcomeArms arms len
def outcomeEnvs : List Exp → Nat → List Outcome
  | [], _ => []
  | e :: es, len => outcome e len :: outcomeEnvs es len
end

/-- In an environment of `len` atoms `e` keeps to its scope. -/
def InScope (len : Nat) (e : Exp) : Prop := (outcome e len).fine = true

theorem outcomeArgs_eq (args : List (Exp × Typ)) (len : Nat) :
    outcomeArgs args len = args.map fun a => outcome a.1 len := by
  induction args with
  | nil => rfl
  | cons a args ih => simp [outcomeArgs, ih]

theorem outcomeFields_eq (xets : List (String × Exp × Typ)) (len : Nat) :
    outcomeFields xets len = xets.map fun f => outcome f.2.1 len := by
  induction xets with
  | nil => rfl
  | cons f xets ih => simp [outcomeFields, ih]

theorem outcomeArms_eq (arms : List (Pat × Exp)) (len : Nat) :
    outcomeArms arms len =
      arms.map fun arm => (outcome arm.2 (len + patDepth arm.1)).under (patDepth arm.1) := by
  induction arms with
  | nil => rfl
  | cons arm arms ih => simp [outcomeArms, ih]

theorem outcomeEnvs_eq (es : List Exp) (len : Nat) :
    outcomeEnvs es len = es.map fun e => outcome e len := by
  induction es with
  | nil => rfl
  | cons e es ih => simp [outcomeEnvs, ih]

end UrWeb.Iflow
