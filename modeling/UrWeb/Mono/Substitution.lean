import Mathlib.Algebra.GroupWithZero.Nat
import UrWeb.Lib.DeBruijn
import UrWeb.Mono.Binders

/-!
# Lifting, substitution and counting

`lift_exp_in_exp`, `sub_exp_in_exp` and `multi_lift` of the environment, and the
`count_free` of the reducer. All of them cross the binders that `Exp.parts` gives,
so the laws of numbered variables hold of them.
-/

namespace UrWeb.Mono

/-- `pat_binds_n`. -/
abbrev patBindsN (p : Pat) : Nat := patDepth p

-- ---------------------------------------------------------------------------
-- Lifting
-- ---------------------------------------------------------------------------

mutual
/-- The variables from `bound` on move up by one. -/
def liftExpInExp (bound : Nat) : Exp → Exp
  | .rel n => if n < bound then .rel n else .rel (n + 1)
  | .abs x dom ran body => .abs x dom ran (liftExpInExp (bound + 1) body)
  | .app f arg => .app (liftExpInExp bound f) (liftExpInExp bound arg)
  | .letIn x t e1 e2 => .letIn x t (liftExpInExp bound e1) (liftExpInExp (bound + 1) e2)
  | .strcat e1 e2 => .strcat (liftExpInExp bound e1) (liftExpInExp bound e2)
  | .seq e1 e2 => .seq (liftExpInExp bound e1) (liftExpInExp bound e2)
  | .write inner => .write (liftExpInExp bound inner)
  | .unop op inner => .unop op (liftExpInExp bound inner)
  | .binop bi op e1 e2 => .binop bi op (liftExpInExp bound e1) (liftExpInExp bound e2)
  | .record xets => .record (liftFields bound xets)
  | .field inner x => .field (liftExpInExp bound inner) x
  | .case disc arms info => .case (liftExpInExp bound disc) (liftArms bound arms) info
  | .con dk pc arg => .con dk pc (liftOption bound arg)
  | .some t inner => .some t (liftExpInExp bound inner)
  | .ffiApp m f args => .ffiApp m f (liftArgs bound args)
  | .query qm query body initial =>
    .query qm (liftExpInExp bound query) (liftExpInExp (bound + 2) body)
      (liftExpInExp bound initial)
  | .dml inner fm => .dml (liftExpInExp bound inner) fm
  | .nextval inner => .nextval (liftExpInExp bound inner)
  | .setval e1 e2 => .setval (liftExpInExp bound e1) (liftExpInExp bound e2)
  | .uurlify inner t b => .uurlify (liftExpInExp bound inner) t b
  | .javaScript mode inner => .javaScript mode (liftExpInExp bound inner)
  | .signalReturn inner => .signalReturn (liftExpInExp bound inner)
  | .signalBind e1 e2 => .signalBind (liftExpInExp bound e1) (liftExpInExp bound e2)
  | .signalSource inner => .signalSource (liftExpInExp bound inner)
  | .serverCall inner t eff fm => .serverCall (liftExpInExp bound inner) t eff fm
  | .recv inner t => .recv (liftExpInExp bound inner) t
  | .sleep inner => .sleep (liftExpInExp bound inner)
  | .spawn inner => .spawn (liftExpInExp bound inner)
  | .error inner t => .error (liftExpInExp bound inner) t
  | .returnBlob blob mimeType t =>
    .returnBlob (liftOption bound blob) (liftExpInExp bound mimeType) t
  | .redirect inner t => .redirect (liftExpInExp bound inner) t
  | .closure n envs => .closure n (liftList bound envs)
  | .prim p => .prim p
  | .named n => .named n
  | .ffi m x => .ffi m x
  | .none t => .none t
def liftOption (bound : Nat) : Option Exp → Option Exp
  | .none => .none
  | .some e => .some (liftExpInExp bound e)
def liftArgs (bound : Nat) : List (Exp × Typ) → List (Exp × Typ)
  | [] => []
  | (e, t) :: args => (liftExpInExp bound e, t) :: liftArgs bound args
def liftFields (bound : Nat) : List (String × Exp × Typ) → List (String × Exp × Typ)
  | [] => []
  | (x, e, t) :: xets => (x, liftExpInExp bound e, t) :: liftFields bound xets
def liftArms (bound : Nat) : List (Pat × Exp) → List (Pat × Exp)
  | [] => []
  | (p, e) :: arms => (p, liftExpInExp (bound + patBindsN p) e) :: liftArms bound arms
def liftList (bound : Nat) : List Exp → List Exp
  | [] => []
  | e :: es => liftExpInExp bound e :: liftList bound es
end

def multiLift : Nat → Exp → Exp
  | 0, e => e
  | n + 1, e => multiLift n (liftExpInExp 0 e)

-- ---------------------------------------------------------------------------
-- Substitution
-- ---------------------------------------------------------------------------

mutual
/-- `rep` replaces the variable `xn`, and the variables above it move down. -/
def subExpInExp (xn : Nat) (rep : Exp) : Exp → Exp
  | .rel n => if n = xn then rep else if n > xn then .rel (n - 1) else .rel n
  | .abs x dom ran body => .abs x dom ran (subExpInExp (xn + 1) (liftExpInExp 0 rep) body)
  | .letIn x t e1 e2 =>
    .letIn x t (subExpInExp xn rep e1) (subExpInExp (xn + 1) (liftExpInExp 0 rep) e2)
  | .app f arg => .app (subExpInExp xn rep f) (subExpInExp xn rep arg)
  | .strcat e1 e2 => .strcat (subExpInExp xn rep e1) (subExpInExp xn rep e2)
  | .seq e1 e2 => .seq (subExpInExp xn rep e1) (subExpInExp xn rep e2)
  | .write inner => .write (subExpInExp xn rep inner)
  | .unop op inner => .unop op (subExpInExp xn rep inner)
  | .binop bi op e1 e2 => .binop bi op (subExpInExp xn rep e1) (subExpInExp xn rep e2)
  | .record xets => .record (subFields xn rep xets)
  | .field inner x => .field (subExpInExp xn rep inner) x
  | .case disc arms info => .case (subExpInExp xn rep disc) (subArms xn rep arms) info
  | .con dk pc arg => .con dk pc (subOption xn rep arg)
  | .some t inner => .some t (subExpInExp xn rep inner)
  | .ffiApp m f args => .ffiApp m f (subArgs xn rep args)
  | .query qm query body initial =>
    .query qm (subExpInExp xn rep query) (subExpInExp (xn + 2) (multiLift 2 rep) body)
      (subExpInExp xn rep initial)
  | .dml inner fm => .dml (subExpInExp xn rep inner) fm
  | .nextval inner => .nextval (subExpInExp xn rep inner)
  | .setval e1 e2 => .setval (subExpInExp xn rep e1) (subExpInExp xn rep e2)
  | .uurlify inner t b => .uurlify (subExpInExp xn rep inner) t b
  | .javaScript mode inner => .javaScript mode (subExpInExp xn rep inner)
  | .signalReturn inner => .signalReturn (subExpInExp xn rep inner)
  | .signalBind e1 e2 => .signalBind (subExpInExp xn rep e1) (subExpInExp xn rep e2)
  | .signalSource inner => .signalSource (subExpInExp xn rep inner)
  | .serverCall inner t eff fm => .serverCall (subExpInExp xn rep inner) t eff fm
  | .recv inner t => .recv (subExpInExp xn rep inner) t
  | .sleep inner => .sleep (subExpInExp xn rep inner)
  | .spawn inner => .spawn (subExpInExp xn rep inner)
  | .error inner t => .error (subExpInExp xn rep inner) t
  | .returnBlob blob mimeType t =>
    .returnBlob (subOption xn rep blob) (subExpInExp xn rep mimeType) t
  | .redirect inner t => .redirect (subExpInExp xn rep inner) t
  | .closure n envs => .closure n (subList xn rep envs)
  | .prim p => .prim p
  | .named n => .named n
  | .ffi m x => .ffi m x
  | .none t => .none t
termination_by structural e => e
def subOption (xn : Nat) (rep : Exp) : Option Exp → Option Exp
  | .none => .none
  | .some e => .some (subExpInExp xn rep e)
termination_by structural e => e
def subArgs (xn : Nat) (rep : Exp) : List (Exp × Typ) → List (Exp × Typ)
  | [] => []
  | (e, t) :: args => (subExpInExp xn rep e, t) :: subArgs xn rep args
termination_by structural e => e
def subFields (xn : Nat) (rep : Exp) : List (String × Exp × Typ) → List (String × Exp × Typ)
  | [] => []
  | (x, e, t) :: xets => (x, subExpInExp xn rep e, t) :: subFields xn rep xets
termination_by structural e => e
def subArms (xn : Nat) (rep : Exp) : List (Pat × Exp) → List (Pat × Exp)
  | [] => []
  | (p, e) :: arms =>
    (p, subExpInExp (xn + patBindsN p) (multiLift (patBindsN p) rep) e) :: subArms xn rep arms
termination_by structural e => e
def subList (xn : Nat) (rep : Exp) : List Exp → List Exp
  | [] => []
  | e :: es => subExpInExp xn rep e :: subList xn rep es
termination_by structural es => es
end

-- ---------------------------------------------------------------------------
-- Counting
-- ---------------------------------------------------------------------------

mutual
/-- How often the variable `target` occurs free. -/
def countFree (target : Nat) : Exp → Nat
  | .rel n => if n = target then 1 else 0
  | .abs _ _ _ body => countFree (target + 1) body
  | .letIn _ _ e1 e2 => countFree target e1 + countFree (target + 1) e2
  | .case disc arms _ => countFree target disc + countFreeArms target arms
  | .query _ query body initial =>
    countFree target query + countFree (target + 2) body + countFree target initial
  | .app e1 e2 | .strcat e1 e2 | .seq e1 e2 | .binop _ _ e1 e2 | .signalBind e1 e2
  | .setval e1 e2 => countFree target e1 + countFree target e2
  | .write inner | .unop _ inner | .field inner _ | .signalReturn inner | .signalSource inner
  | .nextval inner | .sleep inner | .spawn inner | .javaScript _ inner | .uurlify inner _ _
  | .dml inner _ | .redirect inner _ | .error inner _ | .serverCall inner _ _ _
  | .recv inner _ | .some _ inner => countFree target inner
  | .con _ _ arg => countFreeOption target arg
  | .ffiApp _ _ args => countFreeArgs target args
  | .record xets => countFreeFields target xets
  | .returnBlob blob mimeType _ => countFreeOption target blob + countFree target mimeType
  | .closure _ envs => countFreeList target envs
  | .prim _ | .named _ | .ffi _ _ | .none _ => 0
def countFreeOption (target : Nat) : Option Exp → Nat
  | .none => 0
  | .some e => countFree target e
def countFreeArgs (target : Nat) : List (Exp × Typ) → Nat
  | [] => 0
  | (e, _) :: args => countFree target e + countFreeArgs target args
def countFreeFields (target : Nat) : List (String × Exp × Typ) → Nat
  | [] => 0
  | (_, e, _) :: xets => countFree target e + countFreeFields target xets
def countFreeArms (target : Nat) : List (Pat × Exp) → Nat
  | [] => 0
  | (p, e) :: arms => countFree (target + patBindsN p) e + countFreeArms target arms
def countFreeList (target : Nat) : List Exp → Nat
  | [] => 0
  | e :: es => countFree target e + countFreeList target es
end

-- ---------------------------------------------------------------------------
-- The parts of a node
-- ---------------------------------------------------------------------------

section
variable (g : Nat → Exp → Exp)

/-- A node with its parts rebuilt, each by the number of binders that it is under. -/
def Exp.mapParts : Exp → Exp
  | .con dk pc arg => .con dk pc (arg.map (g 0))
  | .some t e => .some t (g 0 e)
  | .ffiApp m x args => .ffiApp m x (args.map fun a => (g 0 a.1, a.2))
  | .app e1 e2 => .app (g 0 e1) (g 0 e2)
  | .abs x dom ran body => .abs x dom ran (g 1 body)
  | .unop s e => .unop s (g 0 e)
  | .binop bi s e1 e2 => .binop bi s (g 0 e1) (g 0 e2)
  | .record xets => .record (xets.map fun f => (f.1, g 0 f.2.1, f.2.2))
  | .field e x => .field (g 0 e) x
  | .case disc arms info =>
    .case (g 0 disc) (arms.map fun a => (a.1, g (patDepth a.1) a.2)) info
  | .strcat e1 e2 => .strcat (g 0 e1) (g 0 e2)
  | .error e t => .error (g 0 e) t
  | .returnBlob blob mimeType t => .returnBlob (blob.map (g 0)) (g 0 mimeType) t
  | .redirect e t => .redirect (g 0 e) t
  | .write e => .write (g 0 e)
  | .seq e1 e2 => .seq (g 0 e1) (g 0 e2)
  | .letIn x t e1 e2 => .letIn x t (g 0 e1) (g 1 e2)
  | .closure n envs => .closure n (envs.map (g 0))
  | .query qm q body initial => .query qm (g 0 q) (g 2 body) (g 0 initial)
  | .dml e fm => .dml (g 0 e) fm
  | .nextval e => .nextval (g 0 e)
  | .setval e1 e2 => .setval (g 0 e1) (g 0 e2)
  | .uurlify e t b => .uurlify (g 0 e) t b
  | .javaScript mode e => .javaScript mode (g 0 e)
  | .signalReturn e => .signalReturn (g 0 e)
  | .signalBind e1 e2 => .signalBind (g 0 e1) (g 0 e2)
  | .signalSource e => .signalSource (g 0 e)
  | .serverCall e t eff fm => .serverCall (g 0 e) t eff fm
  | .recv e t => .recv (g 0 e) t
  | .sleep e => .sleep (g 0 e)
  | .spawn e => .spawn (g 0 e)
  | e => e

end

attribute [local simp] Exp.mapParts in
theorem Exp.mapParts_id (e : Exp) : e.mapParts (fun _ c => c) = e := by
  cases e <;> simp

theorem Exp.mapParts_mapParts (f g : Nat → Exp → Exp) (e : Exp) :
    (e.mapParts f).mapParts g = e.mapParts fun k c => g k (f k c) := by
  cases e <;> simp [Exp.mapParts, Function.comp_def]

theorem Exp.mapParts_eq_iff (f g : Nat → Exp → Exp) (e : Exp) :
    e.mapParts f = e.mapParts g ↔ ∀ p ∈ e.parts 2, f p.1 p.2 = g p.1 p.2 := by
  cases e with
  | con dk pc arg => cases arg <;> simp [Exp.mapParts, Exp.parts]
  | returnBlob blob mimeType t => cases blob <;> simp [Exp.mapParts, Exp.parts]
  | ffiApp m x args =>
    simp only [Exp.mapParts, Exp.parts, List.forall_mem_map, Exp.ffiApp.injEq, true_and,
      List.map_inj_left, Prod.mk.injEq, and_true]
  | record xets =>
    simp only [Exp.mapParts, Exp.parts, List.forall_mem_map, Exp.record.injEq,
      List.map_inj_left, Prod.mk.injEq, and_true, true_and]
  | case disc arms info =>
    simp only [Exp.mapParts, Exp.parts, List.forall_mem_cons, List.forall_mem_map,
      Exp.case.injEq, List.map_inj_left, Prod.mk.injEq, and_true, true_and]
  | _ => simp [Exp.mapParts, Exp.parts]

theorem Exp.parts_mapParts (g : Nat → Exp → Exp) (e : Exp) :
    (e.mapParts g).parts 2 = (e.parts 2).map fun p => (p.1, g p.1 p.2) := by
  cases e with
  | con dk pc arg => cases arg <;> simp [Exp.mapParts, Exp.parts]
  | returnBlob blob mimeType t => cases blob <;> simp [Exp.mapParts, Exp.parts]
  | _ => simp [Exp.mapParts, Exp.parts, Function.comp_def]

theorem Exp.mapParts_ne_rel (g : Nat → Exp → Exp) (he : ∀ n, e ≠ Exp.rel n) (n : Nat) :
    e.mapParts g ≠ .rel n := by
  cases e with
  | rel m => exact absurd rfl (he m)
  | _ => simp [Exp.mapParts]

/-- The binders of the language. -/
def binding : DeBruijn.Binding Exp where
  var := .rel
  parts := Exp.parts 2
  mapParts := Exp.mapParts
  induct := Exp.induct_parts 2
  var_injective _ _ h := Exp.rel.inj h
  parts_var _ := rfl
  parts_mapParts := Exp.parts_mapParts
  mapParts_ne_var f _ := Exp.mapParts_ne_rel f
  mapParts_id := Exp.mapParts_id
  mapParts_mapParts := Exp.mapParts_mapParts
  mapParts_eq_iff := Exp.mapParts_eq_iff

-- ---------------------------------------------------------------------------
-- The functions on the parts
-- ---------------------------------------------------------------------------

theorem liftOption_eq (b : Nat) (arg : Option Exp) :
    liftOption b arg = arg.map (liftExpInExp b) := by
  cases arg <;> rfl

theorem liftArgs_eq (b : Nat) (args : List (Exp × Typ)) :
    liftArgs b args = args.map fun a => (liftExpInExp b a.1, a.2) := by
  induction args with
  | nil => rfl
  | cons a args ih => rw [liftArgs, ih, List.map_cons]

theorem liftFields_eq (b : Nat) (xets : List (String × Exp × Typ)) :
    liftFields b xets = xets.map fun f => (f.1, liftExpInExp b f.2.1, f.2.2) := by
  induction xets with
  | nil => rfl
  | cons f xets ih => rw [liftFields, ih, List.map_cons]

theorem liftArms_eq (b : Nat) (arms : List (Pat × Exp)) :
    liftArms b arms = arms.map fun a => (a.1, liftExpInExp (b + patDepth a.1) a.2) := by
  induction arms with
  | nil => rfl
  | cons a arms ih => rw [liftArms, ih, List.map_cons]

theorem liftList_eq (b : Nat) (es : List Exp) : liftList b es = es.map (liftExpInExp b) := by
  induction es with
  | nil => rfl
  | cons e es ih => rw [liftList, ih, List.map_cons]

theorem liftExpInExp_node (b : Nat) (he : ∀ n, e ≠ Exp.rel n) :
    liftExpInExp b e = e.mapParts fun k c => liftExpInExp (b + k) c := by
  cases e with
  | rel n => exact absurd rfl (he n)
  | con dk pc arg => rw [liftExpInExp, liftOption_eq, Exp.mapParts, Nat.add_zero]
  | returnBlob blob mimeType t => rw [liftExpInExp, liftOption_eq, Exp.mapParts, Nat.add_zero]
  | ffiApp m x args => rw [liftExpInExp, liftArgs_eq, Exp.mapParts, Nat.add_zero]
  | record xets => rw [liftExpInExp, liftFields_eq, Exp.mapParts, Nat.add_zero]
  | case disc arms info => rw [liftExpInExp, liftArms_eq, Exp.mapParts, Nat.add_zero]
  | closure n envs => rw [liftExpInExp, liftList_eq, Exp.mapParts, Nat.add_zero]
  | _ => rfl

theorem multiLift_eq (n : Nat) (e : Exp) : multiLift n e = (liftExpInExp 0)^[n] e := by
  induction n generalizing e with
  | zero => rfl
  | succ n ih => rw [multiLift, ih, Function.iterate_succ_apply]

theorem subOption_eq (x : Nat) (r : Exp) (arg : Option Exp) :
    subOption x r arg = arg.map (subExpInExp x r) := by
  cases arg <;> rfl

theorem subArgs_eq (x : Nat) (r : Exp) (args : List (Exp × Typ)) :
    subArgs x r args = args.map fun a => (subExpInExp x r a.1, a.2) := by
  induction args with
  | nil => rfl
  | cons a args ih => rw [subArgs, ih, List.map_cons]

theorem subFields_eq (x : Nat) (r : Exp) (xets : List (String × Exp × Typ)) :
    subFields x r xets = xets.map fun f => (f.1, subExpInExp x r f.2.1, f.2.2) := by
  induction xets with
  | nil => rfl
  | cons f xets ih => rw [subFields, ih, List.map_cons]

theorem subArms_eq (x : Nat) (r : Exp) (arms : List (Pat × Exp)) :
    subArms x r arms = arms.map fun a =>
      (a.1, subExpInExp (x + patDepth a.1) (multiLift (patDepth a.1) r) a.2) := by
  induction arms with
  | nil => rfl
  | cons a arms ih => rw [subArms, ih, List.map_cons]

theorem subList_eq (x : Nat) (r : Exp) (es : List Exp) :
    subList x r es = es.map (subExpInExp x r) := by
  induction es with
  | nil => rfl
  | cons e es ih => rw [subList, ih, List.map_cons]

theorem subExpInExp_node (x : Nat) (r : Exp) (he : ∀ n, e ≠ Exp.rel n) :
    subExpInExp x r e = e.mapParts fun k c => subExpInExp (x + k) (multiLift k r) c := by
  cases e with
  | rel n => exact absurd rfl (he n)
  | con dk pc arg => rw [subExpInExp, subOption_eq, Exp.mapParts, Nat.add_zero, multiLift]
  | returnBlob blob mimeType t =>
    rw [subExpInExp, subOption_eq, Exp.mapParts, Nat.add_zero, multiLift]
  | ffiApp m y args => rw [subExpInExp, subArgs_eq, Exp.mapParts, Nat.add_zero, multiLift]
  | record xets => rw [subExpInExp, subFields_eq, Exp.mapParts, Nat.add_zero, multiLift]
  | case disc arms info => rw [subExpInExp, subArms_eq, Exp.mapParts, Nat.add_zero, multiLift]
  | closure n envs => rw [subExpInExp, subList_eq, Exp.mapParts, Nat.add_zero, multiLift]
  | _ => rfl

-- ---------------------------------------------------------------------------
-- The laws
-- ---------------------------------------------------------------------------

theorem iterate_lift_rel (a b n : Nat) :
    (liftExpInExp b)^[a] (.rel n) = .rel (if n < b then n else n + a) := by
  induction a with
  | zero => simp
  | succ a ih =>
    rw [Function.iterate_succ_apply', ih, liftExpInExp, ← apply_ite Exp.rel]
    congr 1
    split_ifs <;> omega

theorem iterate_lift_node (a b : Nat) (he : ∀ n, e ≠ Exp.rel n) :
    (liftExpInExp b)^[a] e = e.mapParts fun k c => (liftExpInExp (b + k))^[a] c := by
  induction a with
  | zero => exact (Exp.mapParts_id e).symm
  | succ a ih =>
    rw [Function.iterate_succ_apply', ih, liftExpInExp_node b (Exp.mapParts_ne_rel _ he),
      Exp.mapParts_mapParts]
    simp only [Function.iterate_succ_apply']

def lifting : DeBruijn.Lifting binding where
  lift a b := (liftExpInExp b)^[a]
  mark _ e := e
  mark_zero _ := rfl
  mark_mark _ _ _ := rfl
  mark_mapParts _ _ _ := rfl
  mark_var _ _ := rfl
  mark_ne_var _ _ he := he
  parts_mark _ _ := rfl
  lift_var := iterate_lift_rel
  lift_node a b _ he := iterate_lift_node a b he

def substitution : DeBruijn.Substitution lifting where
  sub a x (r e : Exp) := subExpInExp x (multiLift a r) e
  sub_var a x r n := by
    show subExpInExp x (multiLift a r) (.rel n) = _
    rw [subExpInExp, multiLift_eq, ← apply_ite Exp.rel]
    rfl
  sub_node a x r e he := by
    rw [subExpInExp_node x _ he]
    show _ = e.mapParts fun k c => subExpInExp (x + k) (multiLift (a + k) r) c
    refine (Exp.mapParts_eq_iff _ _ e).mpr fun p _ => ?_
    rw [multiLift_eq a, multiLift_eq p.1, multiLift_eq, ← Function.iterate_add_apply, Nat.add_comm a]

theorem countFreeArgs_eq (v : Nat) (args : List (Exp × Typ)) :
    countFreeArgs v args = (args.map fun a => countFree v a.1).sum := by
  induction args with
  | nil => rfl
  | cons a args ih => rw [countFreeArgs, ih, List.map_cons, List.sum_cons]

theorem countFreeFields_eq (v : Nat) (xets : List (String × Exp × Typ)) :
    countFreeFields v xets = (xets.map fun f => countFree v f.2.1).sum := by
  induction xets with
  | nil => rfl
  | cons f xets ih => rw [countFreeFields, ih, List.map_cons, List.sum_cons]

theorem countFreeArms_eq (v : Nat) (arms : List (Pat × Exp)) :
    countFreeArms v arms = (arms.map fun a => countFree (v + patDepth a.1) a.2).sum := by
  induction arms with
  | nil => rfl
  | cons a arms ih => rw [countFreeArms, ih, List.map_cons, List.sum_cons]

theorem countFreeList_eq (v : Nat) (es : List Exp) :
    countFreeList v es = (es.map (countFree v)).sum := by
  induction es with
  | nil => rfl
  | cons e es ih => rw [countFreeList, ih, List.map_cons, List.sum_cons]

/-- Counting adds up over the parts of a node. -/
theorem countFree_node (v : Nat) (he : ∀ n, e ≠ Exp.rel n) :
    countFree v e = ((e.parts 2).map fun p => countFree (v + p.1) p.2).sum := by
  cases e with
  | rel n => exact absurd rfl (he n)
  | con dk pc arg => cases arg <;> simp [countFree, countFreeOption, Exp.parts]
  | returnBlob blob mimeType t => cases blob <;> simp [countFree, countFreeOption, Exp.parts]
  | ffiApp m x args => simp [countFree, countFreeArgs_eq, Exp.parts, Function.comp_def]
  | record xets => simp [countFree, countFreeFields_eq, Exp.parts, Function.comp_def]
  | case disc arms info => simp [countFree, countFreeArms_eq, Exp.parts, Function.comp_def]
  | closure n envs => simp [countFree, countFreeList_eq, Exp.parts, Function.comp_def]
  | _ => simp [countFree, Exp.parts, Nat.add_assoc]

/-- What is not counted does not occur free. -/
theorem countFree_eq_zero (e : Exp) : countFree v e = 0 ↔ ¬binding.Free v e := by
  induction e using binding.cases_var generalizing v with
  | var n =>
    have hvar : binding.Free v (.rel n) ↔ n = v := by
      rw [DeBruijn.Binding.free_iff]
      simp [binding, Exp.parts]
    rw [show binding.var n = Exp.rel n from rfl, hvar, countFree]
    split <;> simp_all
  | node e he ih =>
    rw [countFree_node v he, List.sum_eq_zero_iff_forall_eq_nat, binding.free_node he, List.forall_mem_map]
    push Not
    exact forall₂_congr fun p hp => ih p hp

theorem plain (e : Exp) : lifting.Plain e := by
  refine binding.induct (fun e ih => ?_) e
  exact .mk rfl ih

section
variable (e r r' s : Exp)

/-- Lifting makes room that substitution takes away again. -/
theorem subExpInExp_liftExpInExp (n : Nat) : subExpInExp n r (liftExpInExp n e) = e := by
  have h := substitution.sub_lift (a := 0) (c := 0) (r := r) (plain e) (Nat.le_refl n)
    (Nat.le_refl n)
  exact h.trans (lifting.lift_zero n e)

theorem liftExpInExp_comm (h : b ≤ c) :
    liftExpInExp b (liftExpInExp c e) = liftExpInExp (c + 1) (liftExpInExp b e) :=
  lifting.lift_comm (a := 1) (d := 1) e h

theorem subExpInExp_comm (h : n ≤ m) :
    subExpInExp m s (subExpInExp n r e) =
      subExpInExp n (subExpInExp m s r) (subExpInExp (m + 1) (liftExpInExp n s) e) :=
  substitution.sub_sub e (plain s) h

theorem subExpInExp_of_countFree (h : countFree n e = 0) :
    subExpInExp n r e = subExpInExp n r' e :=
  substitution.sub_congr_of_not_free (a := 0) e ((countFree_eq_zero e).mp h)

end

/-- The algebra of lifting and substitution, and what counting says about it. -/
theorem substitution_algebra (e : Exp) :
    (∀ n r, subExpInExp n r (liftExpInExp n e) = e) ∧
    (∀ b c, b ≤ c →
      liftExpInExp b (liftExpInExp c e) = liftExpInExp (c + 1) (liftExpInExp b e)) ∧
    (∀ n m r s, n ≤ m → subExpInExp m s (subExpInExp n r e) =
      subExpInExp n (subExpInExp m s r) (subExpInExp (m + 1) (liftExpInExp n s) e)) ∧
    (∀ n, countFree n e = 0 → ∀ r r', subExpInExp n r e = subExpInExp n r' e) :=
  ⟨fun n r => subExpInExp_liftExpInExp e r n, fun _ _ h => liftExpInExp_comm e h,
    fun _ _ r s h => subExpInExp_comm e r s h, fun _ h r r' => subExpInExp_of_countFree e r r' h⟩

/-- The laws at a match with a query in an arm. -/
theorem substitution_algebra_arm :
    let e := Exp.case (.rel 0)
      [(.some .source (.var "x" .source),
        .query ⟨[], [], .source⟩ (.rel 0) (.app (.rel 1) (.rel 4)) (.rel 2))]
      ⟨.source, .source⟩
    subExpInExp 1 (.rel 7) (liftExpInExp 1 e) = e ∧
    liftExpInExp 0 (liftExpInExp 1 e) = liftExpInExp 2 (liftExpInExp 0 e) ∧
    subExpInExp 1 (.rel 8) (subExpInExp 0 (.rel 9) e) =
      subExpInExp 0 (subExpInExp 1 (.rel 8) (.rel 9)) (subExpInExp 2 (liftExpInExp 0 (.rel 8)) e) ∧
    subExpInExp 3 (.rel 8) e = subExpInExp 3 (.rel 9) e := by
  intro e
  have h := substitution_algebra e
  exact ⟨h.1 1 _, h.2.1 0 1 (by decide), h.2.2.1 0 1 _ _ (by decide), h.2.2.2 3 rfl _ _⟩

end UrWeb.Mono
