import UrWeb.Cjr.CSyntax

/-!
# Printing data

How the printer represents datatypes, options and lists: which types are
pointers already, the code that builds a value, the condition that tests a
pattern and the declarations that bind its variables.
-/

namespace UrWeb.Cjr

abbrev Constr := String × Nat × Option Typ

/-- The part of the printing environment that describes types. -/
structure CjrEnv where
  /-- Datatypes by id: name and constructors. -/
  datatypes : Nat → Option (String × List Constr)
  /-- Constructors by id: name, argument and datatype. -/
  constructors : Nat → Option (String × Option Typ × Nat)
  structs : Nat → Option (List (String × Typ))

-- ---------------------------------------------------------------------------
-- Names
-- ---------------------------------------------------------------------------

def ident (s : String) : String :=
  String.join (s.toList.map fun ch =>
    if ch = '\'' then "PRIME"
    else if ch = '$' then "_"
    else if ch.isAlphanum || ch = '_' then ch.toString
    else "_")

def fieldName (x : String) : String := "__uwf_" ++ ident x

def pPatCon (env : CjrEnv) : PatCon → CExp
  | .var n =>
    match env.constructors n with
    | some (x, _, _) => .enumerator x n
    | none => .name s!"__uwc_UNBOUND_{n}"
  | .ffi m datatyp con _ =>
    if m = "Basis" ∧ datatyp = "bool" then .constant ("uw_Basis_" ++ ident con)
    else .constant ("uw_" ++ ident m ++ "_" ++ ident datatyp ++ "_" ++ ident con)

/-- The member of the union that holds a constructor's argument. -/
def conFieldName (env : CjrEnv) : PatCon → String
  | .var n =>
    match env.constructors n with
    | some (x, _, _) => "uw_" ++ ident x
    | none => s!"uw_UNBOUND_{n}"
  | .ffi m _ con _ => "uw_" ++ ident m ++ "_" ++ ident con

/-- The struct, the tag constant and the member of a tagged constructor. -/
def patConInfo (env : CjrEnv) : PatCon → String × CExp × String
  | .var n =>
    match env.constructors n with
    | some (x, _, dn) =>
      let dx := match env.datatypes dn with
        | some (name, _) => name
        | none => "UNBOUND"
      (s!"__uwd_{ident dx}_{dn}", .enumerator x n, "uw_" ++ ident x)
    | none => ("__uwd_UNBOUND", .name s!"__uwc_UNBOUND_{n}", s!"uw_UNBOUND_{n}")
  | .ffi m datatyp con _ =>
    ("uw_" ++ ident m ++ "_" ++ ident datatyp,
      .constant ("uw_" ++ ident m ++ "_" ++ ident datatyp ++ "_" ++ ident con),
      "uw_" ++ ident m ++ "_" ++ ident con)

-- ---------------------------------------------------------------------------
-- Which types are pointers
-- ---------------------------------------------------------------------------

def isUnboxable : Typ → Bool
  | .datatype .default _ => true
  | .ffi m x => m = "Basis" ∧ (x = "string" ∨ x = "queryString")
  | _ => false

def exactListRecordId (env : CjrEnv) : Typ → Option Nat
  | .record i =>
    match env.structs i with
    | some [_, (_, .list _ tail)] => if tail = i then some i else none
    | _ => none
  | _ => none

/-- Reads a constructor as one of a list: of the two constructors `Nil` and `Cons` of a
datatype whose `Cons` holds the struct of a list cell. -/
def exactListConstructor (env : CjrEnv) : PatCon → Option (String × Option Typ × Nat)
  | .ffi .. => none
  | .var c => do
    let (name, payload, n) ← env.constructors c
    let (_, constrs) ← env.datatypes n
    if constrs.length ≠ 2 ∨ ¬ constrs.any (fun k => k.1 = "Nil" && k.2.2.isNone) then none
    else
      let consPayload ← constrs.findSome? fun k => if k.1 = "Cons" then k.2.2 else none
      let i ← exactListRecordId env consPayload
      if name = "Nil" ∧ payload.isNone then some (name, payload, i)
      else if name = "Cons" ∧ payload.bind (exactListRecordId env) = some i then
        some (name, payload, i)
      else none

def getPcArgTyp (env : CjrEnv) : PatCon → Option Typ
  | .var n => (env.constructors n).bind (·.2.1)
  | .ffi _ _ _ arg => arg

-- ---------------------------------------------------------------------------
-- Building
-- ---------------------------------------------------------------------------

mutual

/-- The code that builds a value out of constructors; other expressions are left out. -/
def pExp (env : CjrEnv) : Exp → Option CExp
  | .prim p => some (.lit p)
  | .con .enum pc _ => some (pPatCon env pc)
  | .con .option _ none => some .null
  | .con .option pc (some e) => do
    let c ← pExp env e
    match getPcArgTyp env pc with
    | some t => return if isUnboxable t then c else .alloc (some t) c
    | none => return .alloc none c
  | .con .default pc none =>
    match exactListConstructor env pc with
    | some _ => some .null
    | none =>
      let (xd, xc, _) := patConInfo env pc
      some (.tagged xd xc)
  | .con .default pc (some e) =>
    match exactListConstructor env pc with
    | some (name, payload, i) =>
      if name = "Nil" then some .null
      else do return .alloc (some (payload.getD (.record i))) (← pExp env e)
    | none => do
      let (xd, xc, xn) := patConInfo env pc
      return .taggedWith xd xc xn (← pExp env e)
  | .none _ => some .null
  | .some t e => do
    let c ← pExp env e
    return if isUnboxable t then c else .alloc (some t) c
  | .record 0 _ => some (.int 0)
  | .record i xes => do return .struct i (← pExps env xes)
  | _ => none

def pExps (env : CjrEnv) : List (String × Exp) → Option (List CExp)
  | [] => some []
  | (_, e) :: xes => do return (← pExp env e) :: (← pExps env xes)

end

-- ---------------------------------------------------------------------------
-- Testing and binding
-- ---------------------------------------------------------------------------

mutual

/-- The condition under which the value at `disc` matches. -/
def pPatMatch (env : CjrEnv) (disc : CExp) : Pat → CExp
  | .var _ _ => .int 1
  | .prim p => .eq disc (.lit p)
  | .con dk pc arg =>
    match exactListConstructor env pc, arg with
    | some (name, _, _), none => if name = "Nil" then .eq disc .null else .ne disc .null
    | some (name, _, _), some p =>
      .and (if name = "Nil" then .eq disc .null else .ne disc .null)
        (pPatMatch env (.deref disc) p)
    | none, none =>
      match dk with
      | .enum => .eq disc (pPatCon env pc)
      | .default => .eq (.arrow disc "tag") (pPatCon env pc)
      | .option => .eq disc .null
    | none, some p =>
      match dk with
      | .enum => .and (.eq disc (pPatCon env pc)) (pPatMatch env disc p)
      -- The member is read without the `data` it lies in.
      | .default =>
        .and (.eq (.arrow disc "tag") (pPatCon env pc))
          (pPatMatch env (.arrow disc (conFieldName env pc)) p)
      | .option =>
        .and (.ne disc .null)
          (pPatMatch env
            (if (getPcArgTyp env pc).any isUnboxable then disc else .deref disc) p)
  | .record xps => pPatsMatch env disc xps
  | .none _ => .eq disc .null
  | .some t p =>
    .and (.ne disc .null) (pPatMatch env (if isUnboxable t then disc else .deref disc) p)

def pPatsMatch (env : CjrEnv) (disc : CExp) : List (String × Pat × Typ) → CExp
  | [] => .int 1
  | [(x, p, _)] => pPatMatch env (.dot disc (fieldName x)) p
  | (x, p, _) :: xps =>
    .and (pPatMatch env (.dot disc (fieldName x)) p) (pPatsMatch env disc xps)

end

/-- The declaration of `__uwr_x_idx`. -/
structure CBinding where
  x : String
  idx : Nat
  t : Typ
  init : CExp

mutual

/-- The declarations of a pattern's variables; `n` counts the variables in scope. -/
def pPatBind (env : CjrEnv) (n : Nat) (disc : CExp) : Pat → List CBinding
  | .var x t => [⟨x, n, t, disc⟩]
  | .prim _ => []
  | .con _ _ none => []
  | .con dk pc (some p) =>
    match exactListConstructor env pc with
    | some _ => pPatBind env n (.deref disc) p
    | none =>
      match dk with
      | .enum => pPatBind env n disc p
      | .default => pPatBind env n (.dot (.arrow disc "data") (conFieldName env pc)) p
      | .option =>
        pPatBind env n (if (getPcArgTyp env pc).any isUnboxable then disc else .deref disc) p
  | .record xps => pPatsBind env n disc xps
  | .none _ => []
  | .some t p => pPatBind env n (if isUnboxable t then disc else .deref disc) p

def pPatsBind (env : CjrEnv) (n : Nat) (disc : CExp) : List (String × Pat × Typ) → List CBinding
  | [] => []
  | (x, p, _) :: xps =>
    let bs := pPatBind env n (.dot disc (fieldName x)) p
    bs ++ pPatsBind env (n + bs.length) disc xps

end

-- ---------------------------------------------------------------------------
-- Declarations
-- ---------------------------------------------------------------------------

/-- The members of the struct of a record. -/
def structMembers (xts : List (String × Typ)) : List String := xts.map fun xt => fieldName xt.1

/-- The members of the union in a tagged struct: one for each constructor with an argument. -/
def unionMembers (constrs : List Constr) : List String :=
  (constrs.filter (·.2.2.isSome)).map fun k => "uw_" ++ ident k.1

def CjrEnv.layout (env : CjrEnv) : Layout := fun i => (env.structs i).map structMembers

end UrWeb.Cjr
