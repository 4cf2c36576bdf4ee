import Mathlib.Data.List.Nodup
import UrWeb.Cjr.Values

/-!
# Prepared statements

The pass that turns the text of a query into a template with placeholders, and
the printer's list of arguments for that template.
-/

namespace UrWeb.Cjr

inductive SqlType where
  | int
  | float
  | string
  | char
  | bool
  | time
  | clocktime
  | calendardate
  | blob
  | channel
  | client
  | nullable (t : SqlType)
  deriving DecidableEq, Repr

inductive Backend where
  | postgres
  | mysql
  | sqlite
  deriving DecidableEq, Repr

def sqlifyType (f : String) : Option SqlType :=
  match f with
  | "sqlifyInt" => some .int
  | "sqlifyFloat" => some .float
  | "sqlifyString" => some .string
  | "sqlifyChar" => some .char
  | "sqlifyBool" => some .bool
  | "sqlifyTime" => some .time
  | "sqlifyClocktime" => some .clocktime
  | "sqlifyCalendardate" => some .calendardate
  | "sqlifyBlob" => some .blob
  | "sqlifyChannel" => some .channel
  | "sqlifyClient" => some .client
  | _ => none

-- ---------------------------------------------------------------------------
-- Templates
-- ---------------------------------------------------------------------------

def postgresSqlType : SqlType → String
  | .int => "int8"
  | .float => "float8"
  | .string => "text"
  | .char => "char"
  | .bool => "bool"
  | .time => "timestamp"
  | .clocktime => "time"
  | .calendardate => "date"
  | .blob => "bytea"
  | .channel => "int8"
  | .client => "int4"
  | .nullable t => postgresSqlType t

/-- The placeholder of the parameter with this number, counted from 1. -/
def pBlank (db : Backend) (n : Nat) (t : SqlType) : String :=
  if db = .mysql ∨ db = .sqlite then "?" else s!"${n}::{postgresSqlType t}"

/-- A part of a template: text taken over, or the placeholder of a parameter. -/
inductive Part where
  | text (s : String)
  | blank (n : Nat) (t : SqlType)

def Part.print (db : Backend) : Part → String
  | .text s => s
  | .blank n t => pBlank db n t

/-- Counts a parameter and appends its placeholder. -/
def addBlank (t : SqlType) (st : Nat × List Part) : Nat × List Part :=
  (st.1 + 1, st.2 ++ [.blank (st.1 + 1) t])

def sqlifyCall : Exp → Option SqlType
  | .ffiApp m f _ => if m = "Basis" then sqlifyType f else none
  | _ => none

def isText (s : String) : Exp → Bool
  | .prim (.string _ s') => s' = s
  | _ => false

def isNonePat : Pat → Bool
  | .none _ => true
  | _ => false

def isSomeVarPat : Pat → Bool
  | .some _ (.var _ _) => true
  | _ => false

/-- The number of parameters and the parts of the template of a query, counted from
and appended to `st`; nothing where the query is more than a template. -/
def prepString : Exp → Nat × List Part → Option (Nat × List Part)
  | .prim (.string _ s), st => some (st.1, st.2 ++ [.text s])
  | .ffiApp m f [(e1, t1), (e2, t2)], st =>
    if m = "Basis" ∧ f = "strcat" then do prepString e2 (← prepString e1 st)
    else (sqlifyCall (.ffiApp m f [(e1, t1), (e2, t2)])).map fun t => addBlank t st
  | .ffiApp m f args, st =>
    if m = "Basis" ∧ f = "strcat" then none
    else (sqlifyCall (.ffiApp m f args)).map fun t => addBlank t st
  | .case _ [(p0, e0), (p1, e1)] _, st =>
    match if isNonePat p0 && isText "NULL" e0 && isSomeVarPat p1 then sqlifyCall e1 else none with
    | some t => some (addBlank (.nullable t) st)
    -- The patterns of the arms are not looked at.
    | none => if isText "TRUE" e0 && isText "FALSE" e1 then some (addBlank .bool st) else none
  | _, _ => none

-- ---------------------------------------------------------------------------
-- Arguments
-- ---------------------------------------------------------------------------

/-- The calls whose argument the printer binds to a parameter. -/
def pargType (f : String) : Option SqlType :=
  match f with
  | "sqlifyInt" => some .int
  | "sqlifyFloat" => some .float
  | "sqlifyString" => some .string
  | "sqlifyBool" => some .bool
  | "sqlifyTime" => some .time
  | "sqlifyClocktime" => some .clocktime
  | "sqlifyCalendardate" => some .calendardate
  | "sqlifyBlob" => some .blob
  | "sqlifyChannel" => some .channel
  | "sqlifyClient" => some .client
  | _ => none

/-- The arguments of a prepared query, with their types. -/
def getPargs : Exp → List (Exp × SqlType)
  | .ffiApp m f [(e1, _), (e2, _)] =>
    if m = "Basis" ∧ f = "strcat" then getPargs e1 ++ getPargs e2 else []
  | .ffiApp m f [(e, _)] =>
    if m = "Basis" then ((pargType f).map fun t => (e, t)).toList else []
  | _ => []

-- ---------------------------------------------------------------------------
-- Statement ids
-- ---------------------------------------------------------------------------

/-- The templates seen so far: each has a number of its own. -/
structure PrepareState where
  map : String → Option Nat
  /-- In order of insertion. -/
  list : List (String × Nat)
  count : Nat
  mem_iff : ∀ s id, map s = some id ↔ (s, id) ∈ list
  ids : list.map (·.2) = List.range count

namespace PrepareState

def new : PrepareState where
  map _ := none
  list := []
  count := 0
  mem_iff _ _ := by simp
  ids := rfl

/-- The id of a template, given out when it is new. -/
def nameOf (st : PrepareState) (s : String) : Nat × PrepareState :=
  match h : st.map s with
  | some id => (id, st)
  | none =>
    (st.count,
      { map := fun s' => if s' = s then some st.count else st.map s'
        list := st.list ++ [(s, st.count)]
        count := st.count + 1
        mem_iff := fun s' id => by
          have hmem := st.mem_iff s' id
          by_cases hs : s' = s
          · subst hs
            rw [h] at hmem
            simp only [if_true, Option.some.injEq, List.mem_append, List.mem_singleton,
              Prod.mk.injEq, true_and, ← hmem]
            grind
          · simp [hs, hmem]
        ids := by simp [st.ids, List.range_succ] })

end PrepareState

def tryPrepare (db : Backend) (e : Exp) (st : PrepareState) :
    Option (Nat × String) × PrepareState :=
  match prepString e (0, []) with
  | some (_, parts) =>
    let template := String.join (parts.map (Part.print db))
    let (id, st) := st.nameOf template
    (some (id, template), st)
  | none => (none, st)

/-- The pass over the queries of a file, in order. -/
def prepareAll (db : Backend) : List Exp → PrepareState → List (Option (Nat × String)) × PrepareState
  | [], st => ([], st)
  | e :: es, st =>
    let (r, st) := tryPrepare db e st
    let (rs, st) := prepareAll db es st
    (r :: rs, st)

end UrWeb.Cjr
