import UrWeb.Cjr.Printer

/-!
# Source values and what stands for them

The values of the types built from literals, records, options, lists and
datatypes, the constructor expressions that denote them, the patterns that
take them apart, and matching as the source language means it.
-/

namespace UrWeb.Cjr

inductive Value where
  | prim (p : Prim)
  | bool (b : Bool)
  | record (fields : List (String × Value))
  | none
  | some (v : Value)
  | nil
  | cons (cell : Value)
  /-- A constructor, by id, with its argument. -/
  | con (c : Nat) (arg : Option Value)

/-- The constructors of the one datatype that is built in. -/
def boolCon (b : Bool) : PatCon := .ffi "Basis" "bool" (if b then "True" else "False") none

-- ---------------------------------------------------------------------------
-- Environments
-- ---------------------------------------------------------------------------

/-- Which constructors a representation is meant for. -/
def KindFits : DatatypeKind → List Constr → Prop
  | .enum, constrs => ∀ k ∈ constrs, k.2.2 = none
  | .option, constrs =>
    ∃ x c y d t, constrs = [(x, c, none), (y, d, some t)] ∨
      constrs = [(y, d, some t), (x, c, none)]
  | .default, _ => True

/-- The environment that a file's declarations give: the table of constructors lists
what the datatypes declare, and each datatype has the kind its constructors call for. -/
structure CjrEnv.WellFormed (env : CjrEnv) (kinds : Nat → Option DatatypeKind) : Prop where
  declared : ∀ {c x a n}, env.constructors c = some (x, a, n) →
    ∃ name constrs, env.datatypes n = some (name, constrs) ∧ (x, c, a) ∈ constrs
  listed : ∀ {n name constrs x c a}, env.datatypes n = some (name, constrs) →
    (x, c, a) ∈ constrs → env.constructors c = some (x, a, n)
  fits : ∀ {n name constrs dk}, env.datatypes n = some (name, constrs) → kinds n = some dk →
    KindFits dk constrs
  unit : env.structs 0 = some []

-- ---------------------------------------------------------------------------
-- Constructor expressions
-- ---------------------------------------------------------------------------

/-- The type of a literal. -/
def LitTyp : Prim → Typ → Prop
  | .int _, t => t = .ffi "Basis" "int"
  | .float _, t => t = .ffi "Basis" "float"
  | .string _ _, t => t = .ffi "Basis" "string" ∨ t = .ffi "Basis" "queryString"
  | .char _, t => t = .ffi "Basis" "char"

section
variable (env : CjrEnv) (kinds : Nat → Option DatatypeKind)

mutual

/-- The expression is built from constructors, has the type and denotes the value. A list
is written with the constructors of an option over the struct of its cells, or with
those of a datatype that is declared as a list. -/
inductive Denotes : Exp → Typ → Value → Prop
  | prim : LitTyp p t → Denotes (.prim p) t (.prim p)
  | bool : Denotes (.con .enum (boolCon b) none) (.ffi "Basis" "bool") (.bool b)
  | record : env.structs i = some s → DenotesFields r s f →
    Denotes (.record i r) (.record i) (.record f)
  | absent : Denotes (.none t) (.option t) .none
  | present : Denotes e t v → Denotes (.some t e) (.option t) (.some v)
  | nil : Denotes (.none (.record i)) (.list h i) .nil
  | cons : Denotes e (.record i) v → Denotes (.some (.record i) e) (.list h i) (.cons v)
  | exactNil : exactListConstructor env (.var c) = some ("Nil", none, i) →
    Denotes (.con .default (.var c) none) (.list h i) .nil
  | exactCons : exactListConstructor env (.var c) = some ("Cons", some (.record i), i) →
    Denotes e (.record i) v → Denotes (.con .default (.var c) (some e)) (.list h i) (.cons v)
  | con : env.constructors c = some (x, none, n) → kinds n = some k →
    Denotes (.con k (.var c) none) (.datatype k n) (.con c none)
  | conArg : env.constructors c = some (x, some a, n) → kinds n = some k →
    Denotes e a v → Denotes (.con k (.var c) (some e)) (.datatype k n) (.con c (some v))

inductive DenotesFields : List (String × Exp) → List (String × Typ) →
    List (String × Value) → Prop
  | nil : DenotesFields [] [] []
  | cons : Denotes e t v → DenotesFields r s f →
    DenotesFields ((x, e) :: r) ((x, t) :: s) ((x, v) :: f)

end

-- ---------------------------------------------------------------------------
-- Patterns
-- ---------------------------------------------------------------------------

mutual

/-- The pattern takes values of the type apart by their constructors. -/
inductive Dissects : Pat → Typ → Prop
  | var : Dissects (.var x t) t
  | prim : LitTyp p t → Dissects (.prim p) t
  | bool : Dissects (.con .enum (boolCon b) none) (.ffi "Basis" "bool")
  | record : env.structs i = some s → DissectsFields q s →
    Dissects (.record q) (.record i)
  | absent : Dissects (.none t) (.option t)
  | present : Dissects p t → Dissects (.some t p) (.option t)
  | nil : Dissects (.none (.record i)) (.list h i)
  | cons : Dissects p (.record i) → Dissects (.some (.record i) p) (.list h i)
  | exactNil : exactListConstructor env (.var c) = some ("Nil", none, i) →
    Dissects (.con .default (.var c) none) (.list h i)
  | exactCons : exactListConstructor env (.var c) = some ("Cons", some (.record i), i) →
    Dissects p (.record i) → Dissects (.con .default (.var c) (some p)) (.list h i)
  | con : env.constructors c = some (x, none, n) → kinds n = some k →
    Dissects (.con k (.var c) none) (.datatype k n)
  | conArg : env.constructors c = some (x, some a, n) → kinds n = some k →
    Dissects p a → Dissects (.con k (.var c) (some p)) (.datatype k n)

inductive DissectsFields : List (String × Pat × Typ) → List (String × Typ) → Prop
  | nil : DissectsFields [] s
  | cons : (x, t) ∈ s → Dissects p t → DissectsFields q s →
    DissectsFields ((x, p, t) :: q) s

end

end

mutual

/-- Matching in the source language: the values of the variables, in order. -/
def matchPat : Pat → Value → Option (List (Typ × Value))
  | .var _ t, v => some [(t, v)]
  | .prim p, .prim q => if primEq q p then some [] else none
  | .con _ (.ffi "Basis" "bool" "True" _) none, .bool b => if b then some [] else none
  | .con _ (.ffi "Basis" "bool" "False" _) none, .bool b => if b then none else some []
  | .none _, .none | .none _, .nil => some []
  | .some _ p, .some v | .some _ p, .cons v => matchPat p v
  | .con _ _ none, .nil => some []
  | .con _ _ (some p), .cons v => matchPat p v
  | .con _ (.var c') none, .con c none => if c = c' then some [] else none
  | .con _ (.var c') (some p), .con c (some v) => if c = c' then matchPat p v else none
  | .record xps, .record fs => matchFields xps fs
  | _, _ => none

def matchFields : List (String × Pat × Typ) → List (String × Value) →
    Option (List (Typ × Value))
  | [], _ => some []
  | (x, p, _) :: xps, fs => do
    let v ← fs.lookup x
    return (← matchPat p v) ++ (← matchFields xps fs)

end

end UrWeb.Cjr
