import Mathlib.Data.Finset.Dedup
import Mathlib.Data.Finset.Lattice.Basic
import Mathlib.Data.Finset.SDiff
import Mathlib.Data.Set.Image
import UrWeb.Core.Syntax
import UrWeb.Lib.GraphModel

/-!
# What Core denotes

Call-by-name meaning in a graph model. Type arguments are part of the meaning,
since they name record fields; other types and all kinds are not. What global
names, foreign functions and other primitives mean is given.
-/

namespace UrWeb.Core.Denotation

open GraphModel

-- ---------------------------------------------------------------------------
-- Constructors
-- ---------------------------------------------------------------------------

inductive Former
  | dom
  | ran
  | poly
  | kindPoly
  | record
  | item (n : Nat)

inductive TypeToken where
  | name (s : String)
  /-- The names of all fields of a row. -/
  | row (names : Finset String)
  /-- Some tokens of one field of a row. -/
  | entry (x : String) (tokens : List TypeToken)
  | part (former : Former) (token : Option TypeToken)
  | arrow (args : List TypeToken) (result : TypeToken)

abbrev TypeValue := Set TypeToken

def part (former : Former) (X : TypeValue) : TypeValue :=
  insert (.part former none) ((fun w => .part former (some w)) '' X)

/-- A row with one field for each pair of a name and a type. -/
def rowOf (fields : List (TypeValue × TypeValue)) : TypeValue :=
  {w | (∃ x ws, w = .entry x ws ∧ ∃ f ∈ fields, .name x ∈ f.1 ∧ ∀ v ∈ ws, v ∈ f.2) ∨
    ∃ xs : List String, w = .row xs.toFinset ∧ List.Forall₂ (fun x f => .name x ∈ f.1) xs fields}

def concatRows (X Y : TypeValue) : TypeValue :=
  {w | ((∀ names, w ≠ .row names) ∧ (w ∈ X ∨ w ∈ Y)) ∨
    ∃ names names', w = .row (names ∪ names') ∧ .row names ∈ X ∧ .row names' ∈ Y}

/-- A function on types, mapped over a row. -/
def mapRow (f X : TypeValue) : TypeValue :=
  {w | (∃ x ws vs, w = .entry x ws ∧ .entry x vs ∈ X ∧ ∀ v ∈ ws, v ∈ app .arrow f {v | v ∈ vs}) ∨
    ∃ names, w = .row names ∧ .row names ∈ X}

/-- What global names and primitives mean. -/
structure TypeGlobals where
  named : Nat → TypeValue
  ffi : String → String → TypeValue

section
variable (g : TypeGlobals)

mutual
def conValue : Constructor → (Nat → TypeValue) → TypeValue
  | .tFun dom ran, τ => part .dom (conValue dom τ) ∪ part .ran (conValue ran τ)
  | .tCFun _ _ c, τ => part .poly (lam .arrow fun X => conValue c (push X τ))
  | .tKFun _ c, τ => part .kindPoly (conValue c τ)
  | .tRecord c, τ => part .record (conValue c τ)
  | .rel n, τ => τ n
  | .named n, _ => g.named n
  | .ffi m x, _ => g.ffi m x
  | .app c1 c2, τ => app .arrow (conValue c1 τ) (conValue c2 τ)
  | .abs _ _ c, τ => lam .arrow fun X => conValue c (push X τ)
  | .kAbs _ c, τ => conValue c τ
  | .kApp c _, τ => conValue c τ
  | .name s, _ => {.name s}
  | .record _ fields, τ => rowOf (conFields fields τ)
  | .concat c1 c2, τ => concatRows (conValue c1 τ) (conValue c2 τ)
  | .map _ _, _ => lam .arrow fun f => lam .arrow fun X => mapRow f X
  -- the empty row
  | .unit, _ => rowOf []
  | .tuple cs, τ => conItems 0 cs τ
  | .proj c n, τ => {w | .part (.item (n - 1)) (some w) ∈ conValue c τ}
def conFields : List (Constructor × Constructor) → (Nat → TypeValue) → List (TypeValue × TypeValue)
  | [], _ => []
  | (c1, c2) :: fields, τ => (conValue c1 τ, conValue c2 τ) :: conFields fields τ
def conItems (i : Nat) : List Constructor → (Nat → TypeValue) → TypeValue
  | [], _ => ∅
  | c :: cs, τ => part (.item i) (conValue c τ) ∪ conItems (i + 1) cs τ
end

end

-- ---------------------------------------------------------------------------
-- Expressions
-- ---------------------------------------------------------------------------

inductive ConTag
  | var (n : Nat)
  | ffi (m con : String)

def conTag : PatternConstructor → ConTag
  | .var n => .var n
  | .ffi m _ _ con _ _ => .ffi m con

inductive Token where
  | prim (p : Prim)
  | tag (c : ConTag)
  | payload (c : ConTag) (token : Token)
  /-- The names of all fields of a record. -/
  | shape (names : Finset String)
  | field (x : String) (token : Token)
  | arrow (args : List Token) (result : Token)
  | typeArrow (t : TypeValue) (result : Token)

abbrev Value := Set Token

structure Globals where
  types : TypeGlobals
  named : Nat → Value
  ffi : String → String → Value
  write : Value
  closure : Nat → Value
  serverCall : Nat → FailureMode → Value

def appAll (X : Value) (Ys : List Value) : Value := Ys.foldl (app .arrow) X

def constructed (c : ConTag) (payload : Option Value) : Value :=
  {w | w = .tag c ∨ ∃ X ∈ payload, ∃ v ∈ X, w = .payload c v}

open Classical in
/-- How many of the fields have the name. -/
noncomputable def occurrences (x : String) (fields : List (TypeValue × Value)) : Nat :=
  fields.countP fun f => .name x ∈ f.1

def recordOf (clash : Value) (fields : List (TypeValue × Value)) : Value :=
  {w | (∃ x v, w = .field x v ∧ ((occurrences x fields ≤ 1 ∧ ∃ f ∈ fields, .name x ∈ f.1 ∧ v ∈ f.2) ∨
      (1 < occurrences x fields ∧ v ∈ clash))) ∨
    ∃ xs : List String, w = .shape xs.toFinset ∧ List.Forall₂ (fun x f => .name x ∈ f.1) xs fields}

def fieldOf (t : TypeValue) (X : Value) : Value := {v | ∃ x, .name x ∈ t ∧ .field x v ∈ X}

def concatRecords (X Y : Value) : Value :=
  {w | (∃ x v, w = .field x v ∧ (w ∈ X ∨ w ∈ Y)) ∨
    ∃ names names', w = .shape (names ∪ names') ∧ .shape names ∈ X ∧ .shape names' ∈ Y}

/-- A record without the fields of these names. -/
def cutFields (names : Finset String) (X : Value) : Value :=
  {w | (∃ x v, w = .field x v ∧ x ∉ names ∧ w ∈ X) ∨
    ∃ shape, w = .shape (shape \ names) ∧ .shape shape ∈ X}

def cutOf (t : TypeValue) (X : Value) : Value := {w | ∃ x, .name x ∈ t ∧ w ∈ cutFields {x} X}

def cutMultiOf (t : TypeValue) (X : Value) : Value := {w | ∃ names, .row names ∈ t ∧ w ∈ cutFields names X}

mutual
/-- The value has what the pattern asks for. -/
def Accepts : Pattern → Value → Prop
  | .var _ _, _ => True
  | .prim p, X => ∃ q, .prim q ∈ X ∧ primEq p q = true
  | .constructor _ pc _ sub, X =>
    .tag (conTag pc) ∈ X ∧ SubAccepts sub {v | .payload (conTag pc) v ∈ X}
  | .record fields, X => (∃ names, .shape names ∈ X ∧ ∀ f ∈ fields, f.1 ∈ names) ∧ FieldsAccept fields X
def SubAccepts : Option Pattern → Value → Prop
  | none, _ => True
  | some p, X => Accepts p X
def FieldsAccept : List (String × Pattern × Constructor) → Value → Prop
  | [], _ => True
  | (x, p, _) :: fields, X => Accepts p {v | .field x v ∈ X} ∧ FieldsAccept fields X
end

mutual
/-- The value has what rules the pattern out. -/
def Rejects : Pattern → Value → Prop
  | .var _ _, _ => False
  | .prim p, X => ∃ q, .prim q ∈ X ∧ primEq p q = false
  | .constructor _ pc _ sub, X =>
    (∃ c, .tag c ∈ X ∧ c ≠ conTag pc) ∨ SubRejects sub {v | .payload (conTag pc) v ∈ X}
  | .record fields, X => (∃ names, .shape names ∈ X ∧ ∃ f ∈ fields, f.1 ∉ names) ∨ FieldsReject fields X
def SubRejects : Option Pattern → Value → Prop
  | none, _ => False
  | some p, X => Rejects p X
def FieldsReject : List (String × Pattern × Constructor) → Value → Prop
  | [], _ => False
  | (x, p, _) :: fields, X => Rejects p {v | .field x v ∈ X} ∨ FieldsReject fields X
end

mutual
/-- What the variables of a pattern stand for, the first one first. -/
def binds : Pattern → Value → List Value
  | .var _ _, X => [X]
  | .prim _, _ => []
  | .constructor _ pc _ sub, X => subBinds sub {v | .payload (conTag pc) v ∈ X}
  | .record fields, X => fieldsBind fields X
def subBinds : Option Pattern → Value → List Value
  | none, _ => []
  | some p, X => binds p X
def fieldsBind : List (String × Pattern × Constructor) → Value → List Value
  | [], _ => []
  | (x, p, _) :: fields, X => binds p {v | .field x v ∈ X} ++ fieldsBind fields X
end

section
-- `clash` stands for what a field holds when a record has two of that name
variable (g : Globals) (clash : Value)

mutual
def value : Expression → (Nat → TypeValue) → (Nat → Value) → Value
  | .prim p, _, _ => {.prim p}
  | .rel n, _, ρ => ρ n
  | .named n, _, _ => g.named n
  | .constructor _ pc _ payload, τ, ρ => constructed (conTag pc) (payloadValue payload τ ρ)
  | .ffi m x, _, _ => g.ffi m x
  | .ffiApp m x args, τ, ρ => appAll (g.ffi m x) (argValues args τ ρ)
  | .app e1 e2, τ, ρ => app .arrow (value e1 τ ρ) (value e2 τ ρ)
  | .abs _ _ _ e, τ, ρ => lam .arrow fun X => value e τ (push X ρ)
  | .cApp e c, τ, ρ => {w | .typeArrow (conValue g.types c τ) w ∈ value e τ ρ}
  | .cAbs _ _ e, τ, ρ => {w | ∃ t v, w = .typeArrow t v ∧ v ∈ value e (push t τ) ρ}
  | .kAbs _ e, τ, ρ => value e τ ρ
  | .kApp e _, τ, ρ => value e τ ρ
  | .record fields, τ, ρ => recordOf clash (fieldValues fields τ ρ)
  | .field e c _, τ, ρ => fieldOf (conValue g.types c τ) (value e τ ρ)
  | .concat e1 _ e2 _, τ, ρ => concatRecords (value e1 τ ρ) (value e2 τ ρ)
  | .cut e c _, τ, ρ => cutOf (conValue g.types c τ) (value e τ ρ)
  | .cutMulti e c _, τ, ρ => cutMultiOf (conValue g.types c τ) (value e τ ρ)
  | .case disc arms _, τ, ρ => armsValue arms (value disc τ ρ) τ ρ
  | .write e, τ, ρ => app .arrow g.write (value e τ ρ)
  | .closure n es, τ, ρ => appAll (g.closure n) (listValues es τ ρ)
  | .letIn _ _ e1 e2, τ, ρ => value e2 τ (push (value e1 τ ρ) ρ)
  | .serverCall n es _ fm, τ, ρ => appAll (g.serverCall n fm) (listValues es τ ρ)
def payloadValue : Option Expression → (Nat → TypeValue) → (Nat → Value) → Option Value
  | none, _, _ => none
  | some e, τ, ρ => some (value e τ ρ)
def argValues : List (Expression × Constructor) → (Nat → TypeValue) → (Nat → Value) → List Value
  | [], _, _ => []
  | (e, _) :: args, τ, ρ => value e τ ρ :: argValues args τ ρ
def fieldValues : List (Constructor × Expression × Constructor) → (Nat → TypeValue) →
    (Nat → Value) → List (TypeValue × Value)
  | [], _, _ => []
  | (c, e, _) :: fields, τ, ρ => (conValue g.types c τ, value e τ ρ) :: fieldValues fields τ ρ
/-- The first arm that accepts the value after others that reject it. -/
def armsValue : List (Pattern × Expression) → Value → (Nat → TypeValue) → (Nat → Value) → Value
  | [], _, _, _ => ∅
  | (p, e) :: arms, X, τ, ρ =>
    {w | (Accepts p X ∧ w ∈ value e τ (pushAll (binds p X) ρ)) ∨ (Rejects p X ∧ w ∈ armsValue arms X τ ρ)}
def listValues : List Expression → (Nat → TypeValue) → (Nat → Value) → List Value
  | [], _, _ => []
  | e :: es, τ, ρ => value e τ ρ :: listValues es τ ρ
end

end

end UrWeb.Core.Denotation
