import UrWeb.Cjr.Syntax

/-!
# The C expressions that build and inspect data

The fragment of C in which the printer writes the values of datatypes,
options, lists and records, the conditions that test them and the paths that
reach their parts. A cell is filled before its address is known to anyone and
is never written again, so a pointer is modelled by what it points to.
-/

namespace UrWeb.Cjr

inductive CExp where
  | name (x : String)
  | int (n : Int)
  | lit (p : Prim)
  | null
  /-- The constant of the constructor with this name and id. -/
  | enumerator (x : String) (n : Nat)
  /-- The constant of a foreign constructor. -/
  | constant (x : String)
  | deref (e : CExp)
  | arrow (e : CExp) (member : String)
  | dot (e : CExp) (member : String)
  | eq (a b : CExp)
  | ne (a b : CExp)
  | and (a b : CExp)
  /-- `({ t *tmp = uw_malloc(ctx, sizeof(t)); *tmp = e; tmp; })`. -/
  | alloc (t : Option Typ) (e : CExp)
  /-- `({ struct s *tmp = uw_malloc(ctx, sizeof(struct s)); tmp->tag = tag; tmp; })`. -/
  | tagged (s : String) (tag : CExp)
  /-- As `tagged`, with `tmp->data.member = e;` before the address is given out. -/
  | taggedWith (s : String) (tag : CExp) (member : String) (e : CExp)
  /-- `({ struct __uws_i tmp = {es}; tmp; })`. -/
  | struct (i : Nat) (es : List CExp)

inductive CVal where
  | int (n : Int)
  | prim (p : Prim)
  | enumerator (n : Nat)
  | constant (x : String)
  | null
  | ptr (cell : CVal)
  | struct (members : List (String × CVal))

namespace CVal

def member (m : String) : CVal → Option CVal
  | .struct ms => ms.lookup m
  | _ => none

def target : CVal → Option CVal
  | .ptr c => some c
  | _ => none

/-- `==` on what the printer compares: integers, constants, literals, and a
pointer with `NULL`. A string is a pointer that is not null. -/
def equal : CVal → CVal → Option Bool
  | .null, .null => some true
  | .null, .ptr _ | .ptr _, .null => some false
  | .prim (.string _ _), .null => some false
  | .enumerator m, .enumerator n => some (m = n)
  | .constant x, .constant y => some (x = y)
  | .int m, .int n => some (m = n)
  | .prim p, .prim q => some (primEq p q)
  | _, _ => none

def ofBool (b : Bool) : CVal := .int (if b then 1 else 0)

def truth : CVal → Option Bool
  | .int n => some (n ≠ 0)
  | _ => none

@[simp] theorem truth_ofBool (b : Bool) : (ofBool b).truth = some b := by cases b <;> rfl

end CVal

/-- The declared members of each struct, in order. -/
abbrev Layout := Nat → Option (List String)

mutual

/-- The value of a C expression, if it has one: a member that a struct does not
have, or the target of a null pointer, has none. -/
def CExp.eval (layout : Layout) (σ : String → Option CVal) : CExp → Option CVal
  | .name x => σ x
  | .int n => some (.int n)
  | .lit p => some (.prim p)
  | .null => some .null
  | .enumerator _ n => some (.enumerator n)
  | .constant x => some (.constant x)
  | .deref e => do (← e.eval layout σ).target
  | .arrow e m => do (← (← e.eval layout σ).target).member m
  | .dot e m => do (← e.eval layout σ).member m
  | .eq a b => do return .ofBool (← (← a.eval layout σ).equal (← b.eval layout σ))
  | .ne a b => do return .ofBool (!(← (← a.eval layout σ).equal (← b.eval layout σ)))
  | .and a b => do
    if ← (← a.eval layout σ).truth then
      return .ofBool (← (← b.eval layout σ).truth)
    else
      return .ofBool false
  | .alloc _ e => do return .ptr (← e.eval layout σ)
  | .tagged _ tag => do return .ptr (.struct [("tag", ← tag.eval layout σ)])
  | .taggedWith _ tag m e => do
    return .ptr (.struct [("tag", ← tag.eval layout σ),
      ("data", .struct [(m, ← e.eval layout σ)])])
  | .struct i es => do
    let ms ← layout i
    let vs ← CExp.evalAll layout σ es
    if ms.length = vs.length then return .struct (ms.zip vs) else none

def CExp.evalAll (layout : Layout) (σ : String → Option CVal) : List CExp → Option (List CVal)
  | [] => some []
  | e :: es => do return (← e.eval layout σ) :: (← CExp.evalAll layout σ es)

end

/-- The members read through a pointer to a struct. -/
def CExp.arrows : CExp → List String
  | .deref e | .dot e _ | .alloc _ e => e.arrows
  | .arrow e m => e.arrows ++ [m]
  | .eq a b | .ne a b | .and a b => a.arrows ++ b.arrows
  | _ => []

end UrWeb.Cjr
