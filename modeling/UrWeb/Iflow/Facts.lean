import UrWeb.Lib.FailingState
import UrWeb.Primitives

/-!
# The fact base of the information-flow check

Symbolic atoms, the relations between them and the database `CcDb` of what has
been asserted: a union-find on atoms with known flags and integer lower bounds.
The maps of the database are look-up functions; their keys are compared by the
order of the atoms, which identifies more constants than `==` does.
-/

namespace UrWeb

-- ---------------------------------------------------------------------------
-- Comparison of literals
-- ---------------------------------------------------------------------------

/-- The derived `==`. -/
def Prim.eq : Prim → Prim → Bool
  | .int m, .int n => m == n
  | .float x, .float y => floatEq x y
  | .string m s, .string m' t => m == m' && s == t
  | .char c, .char d => c == d
  | _, _ => false

/-- Whether `Prim::cmp` answers `Equal`. A float that is no number is equal to
every float, and the mode of a string does not count. -/
def Prim.cmpEqual : Prim → Prim → Bool
  | .int m, .int n => m == n
  | .float x, .float y => floatIsNaN x || floatIsNaN y || floatEq x y
  | .string _ s, .string _ t => s == t
  | .char c, .char d => c == d
  | _, _ => false

namespace Iflow

-- ---------------------------------------------------------------------------
-- Atoms and relations
-- ---------------------------------------------------------------------------

/-- Function symbols of atoms. -/
inductive Func
  | dtCon0 (f : String)
  | dtCon1 (f : String)
  | unCon (f : String)
  | other (f : String)
  deriving DecidableEq

inductive Reln
  | known
  | sql (tab : String)
  | pCon0 (f : String)
  | pCon1 (f : String)
  | eq
  | ne
  | lt
  | le
  | gt
  | ge
  deriving DecidableEq

/-- Symbolic expressions. -/
inductive Atom
  | const (p : Prim)
  | var (n : Nat)
  | lvar (n : Nat)
  | func (f : Func) (args : List Atom)
  | recd (fields : List (String × Atom))
  | proj (e : Atom) (f : String)

mutual
/-- Comparison of atoms whose literals are compared by `p`. -/
def Atom.compare (p : Prim → Prim → Bool) : Atom → Atom → Bool
  | .const x, .const y => p x y
  | .var m, .var n => m == n
  | .lvar m, .lvar n => m == n
  | .func f as, .func g bs => f == g && compareArgs p as bs
  | .recd xs, .recd ys => compareFields p xs ys
  | .proj a x, .proj b y => Atom.compare p a b && x == y
  | _, _ => false
def compareArgs (p : Prim → Prim → Bool) : List Atom → List Atom → Bool
  | [], [] => true
  | a :: as, b :: bs => Atom.compare p a b && compareArgs p as bs
  | _, _ => false
def compareFields (p : Prim → Prim → Bool) : List (String × Atom) → List (String × Atom) → Bool
  | [], [] => true
  | (x, a) :: xs, (y, b) :: ys => x == y && Atom.compare p a b && compareFields p xs ys
  | _, _ => false
end

/-- The derived `==`. -/
def Atom.eq (a b : Atom) : Bool := a.compare Prim.eq b

/-- Whether two atoms are one key of the maps. -/
def Atom.sameKey (a b : Atom) : Bool := a.compare Prim.cmpEqual b

-- ---------------------------------------------------------------------------
-- The database
-- ---------------------------------------------------------------------------

structure CcDb where
  parent : Atom → Option Atom
  known : Atom → Bool
  ge : Atom → Option Int64

namespace CcDb

open Failing

def empty : CcDb := ⟨fun _ => none, fun _ => false, fun _ => none⟩

def insertParent (db : CcDb) (a r : Atom) : CcDb :=
  { db with parent := fun x => if x.sameKey a then some r else db.parent x }

def insertKnown (db : CcDb) (a : Atom) : CcDb :=
  { db with known := fun x => x.sameKey a || db.known x }

def insertGe (db : CcDb) (a : Atom) (n : Int64) : CcDb :=
  { db with ge := fun x => if x.sameKey a then some n else db.ge x }

/-- The representative, with path compression. Each step up, here and below,
costs a unit of fuel: a cycle among the parents or through the arguments of an
atom makes the compiler loop. -/
def find : Nat → Atom → Failing CcDb Atom
  | 0, _ => fail
  | n + 1, a => do
    match (← get).parent a with
    | none => return a
    | some p =>
      let root ← find n p
      modify fun db => db.insertParent a root
      return root

def markKnown : Nat → Atom → Failing CcDb Unit
  | 0, _ => fail
  | n + 1, a => do
    let rep ← find n a
    if (← get).known rep then return ()
    else
      modify fun db => db.insertKnown rep
      match rep with
      | .func (.dtCon1 _) args => args.forM fun arg => markKnown n arg
      | .recd fields => fields.forM fun f => markKnown n f.2
      | .proj inner _ => markKnown n inner
      | _ => return ()

def isKnown : Nat → Atom → Failing CcDb Bool
  | 0, _ => fail
  | n + 1, a => do
    let rep ← find n a
    if (← get).known rep then return true
    else
      match rep with
      | .func (.dtCon1 _) args => args.allM fun arg => isKnown n arg
      | .recd fields => fields.allM fun f => isKnown n f.2
      | .const _ => return true
      | _ => return false

/-- The shape that tells two atoms apart. -/
def variety : Atom → Option Nat
  | .const _ => some 0
  | .func (.dtCon0 _) _ => some 1
  | .func (.dtCon1 _) _ => some 2
  | .recd _ => some 3
  | _ => none

/-- Both have a shape, and not the same. -/
def contradicts (a b : Atom) : Bool :=
  match variety a, variety b with
  | some va, some vb => va != vb
  | _, _ => false

/-- The bounds of the merged class, kept at the second representative. -/
def mergeGe (ra rb : Atom) (db : CcDb) : CcDb :=
  match db.ge ra, db.ge rb with
  | some n1, some n2 => db.insertGe rb (max n1 n2)
  | some n1, none => db.insertGe rb n1
  | _, _ => db

def union (n : Nat) (a b : Atom) : Failing CcDb Bool := do
  let ra ← find n a
  let rb ← find n b
  if ra.eq rb then return true
  else if contradicts ra rb then return false
  else
    let db ← get
    modify fun db => db.insertParent ra rb
    if db.known ra then markKnown n rb
    if db.known rb then markKnown n ra
    modify (mergeGe ra rb)
    return true

/-- `assert_reln`: `false` on a contradiction. -/
def assertReln (n : Nat) : Reln → List Atom → Failing CcDb Bool
  | .known, [e] => do
    markKnown n e
    return true
  | .eq, [e1, e2] => union n e1 e2
  | .pCon0 f, [e] => do
    match ← find n e with
    | .func (.dtCon0 f2) _ => return f == f2
    | _ => union n e (.func (.dtCon0 f) [])
  | .pCon1 f, [e] => do
    match ← find n e with
    | .func (.dtCon1 f2) _ => return f == f2
    | _ => return true
  | .ge, [e1, e2] => do
    match ← find n e2 with
    | .const (.int k) => do
      let re1 ← find n e1
      modify fun db => db.insertGe re1 <|
        match db.ge re1 with
        | some c => max c k
        | none => k
      return true
    | _ => return true
  | _, _ => return true

def checkReln (n : Nat) : Reln → List Atom → Failing CcDb Bool
  | .known, [e] => isKnown n e
  | .eq, [e1, e2] => do
    let r1 ← find n e1
    let r2 ← find n e2
    return r1.eq r2
  | .pCon0 f, [e] => do
    match ← find n e with
    | .func (.dtCon0 f2) _ => return f2 == f
    | _ => return false
  | .pCon1 f, [e] => do
    match ← find n e with
    | .func (.dtCon1 f2) _ => return f2 == f
    | _ => return false
  | .ge, [e1, e2] => do
    let re1 ← find n e1
    let re2 ← find n e2
    match (← get).ge re1, re2 with
    | some n1, .const (.int n2) => return n2 ≤ n1
    | _, _ => return false
  | _, _ => return false

/-- Whether `derived` can be built from `bases`. -/
def builtFrom : Nat → List Atom → Atom → Failing CcDb Bool
  | 0, _, _ => fail
  | n + 1, bases, derived => do
    let rep ← find n derived
    if ← isKnown n rep then return true
    else if ← bases.anyM fun b => do return (← find n b).eq rep then return true
    else
      match rep with
      | .func (.dtCon0 _) _ => return true
      | .const _ => return true
      | .func (.dtCon1 _) args => args.allM fun a => builtFrom n bases a
      | .recd fields => fields.allM fun f => builtFrom n bases f.2
      | .func (.other _) args => args.allM fun a => builtFrom n bases a
      | _ => return false

end CcDb

end Iflow

end UrWeb
