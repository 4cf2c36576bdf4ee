import UrWeb.Cjr.Syntax

/-!
# Nested prepared queries

A prepared query whose body runs the same prepared statement must not share the
statement's cursor with it. `annotate` first collects, for every named value and
function, the ids of the prepared queries in it and in what it names, and then
marks each prepared query as nested or not. Declarations without expressions and
the list of exports pass through unchanged; the former are `other`.
-/

namespace UrWeb.Cjr

structure FunDecl where
  x : String
  n : Nat
  params : List (String × Typ)
  t : Typ
  e : Exp

inductive Task
  | initialise
  | clientLeaves
  | periodic (n : Int64)

inductive Decl where
  | val (x : String) (n : Nat) (t : Typ) (e : Exp)
  | func (f : FunDecl)
  | funRec (fs : List FunDecl)
  | task (task : Task) (x1 x2 : String) (e : Exp)
  | other (shape : Nat)

-- ---------------------------------------------------------------------------
-- The ids of the prepared queries in an expression
-- ---------------------------------------------------------------------------

/-- The ids recorded for each name; no ids where nothing is recorded. -/
abbrev Globals := Nat → List Nat

def preparedIds : Option PreparedQuery → List Nat
  | none => []
  | some pq => [pq.id]

section
variable (globals : Globals)

mutual
def expUses : Exp → List Nat
  | .prim _ | .rel _ | .ffi _ _ => []
  | .named n => globals n
  | .con _ _ inner => optUses inner
  | .none _ => []
  | .some _ inner => expUses inner
  | .ffiApp _ _ args => argUses args
  | .app f args => expUses f ++ listUses args
  | .unop _ inner => expUses inner
  | .binop _ e1 e2 => expUses e1 ++ expUses e2
  | .record _ fields => fieldUses fields
  | .field inner _ => expUses inner
  | .case scrutinee arms _ => expUses scrutinee ++ armUses arms
  | .error inner _ => expUses inner
  | .returnBlob blob mimeType _ => optUses blob ++ expUses mimeType
  | .redirect inner _ => expUses inner
  | .write inner => expUses inner
  | .seq e1 e2 => expUses e1 ++ expUses e2
  | .letIn _ _ e1 e2 => expUses e1 ++ expUses e2
  | .query _ query body initial prepared =>
    expUses query ++ expUses body ++ expUses initial ++ preparedIds prepared
  | .dml e _ _ => expUses e
  | .nextval seq _ => expUses seq
  | .setval seq count => expUses seq ++ expUses count
  | .uurlify inner _ _ => expUses inner
def optUses : Option Exp → List Nat
  | none => []
  | some e => expUses e
def argUses : List (Exp × Typ) → List Nat
  | [] => []
  | (e, _) :: args => expUses e ++ argUses args
def listUses : List Exp → List Nat
  | [] => []
  | e :: es => expUses e ++ listUses es
def fieldUses : List (String × Exp) → List Nat
  | [] => []
  | (_, e) :: fields => expUses e ++ fieldUses fields
def armUses : List (Pat × Exp) → List Nat
  | [] => []
  | (_, e) :: arms => expUses e ++ armUses arms
end

-- ---------------------------------------------------------------------------
-- Marking
-- ---------------------------------------------------------------------------

def setNested (body : Exp) : Option PreparedQuery → Option PreparedQuery
  | none => none
  | some pq => some { pq with nested := pq.id ∈ expUses globals body }

mutual
/-- Every query is marked that is not inside the text or the initial value of another. -/
def annotateExp : Exp → Exp
  | .prim p => .prim p
  | .rel n => .rel n
  | .named n => .named n
  | .ffi m x => .ffi m x
  | .con dk pc inner => .con dk pc (annotateOpt inner)
  | .none t => .none t
  | .some t inner => .some t (annotateExp inner)
  | .ffiApp m f args => .ffiApp m f (annotateArgs args)
  | .app f args => .app (annotateExp f) (annotateList args)
  | .unop op inner => .unop op (annotateExp inner)
  | .binop op e1 e2 => .binop op (annotateExp e1) (annotateExp e2)
  | .record id fields => .record id (annotateFields fields)
  | .field inner f => .field (annotateExp inner) f
  | .case scrutinee arms info => .case (annotateExp scrutinee) (annotateArms arms) info
  | .error inner t => .error (annotateExp inner) t
  | .returnBlob blob mimeType t => .returnBlob (annotateOpt blob) (annotateExp mimeType) t
  | .redirect inner t => .redirect (annotateExp inner) t
  | .write inner => .write (annotateExp inner)
  | .seq e1 e2 => .seq (annotateExp e1) (annotateExp e2)
  | .letIn x t e1 e2 => .letIn x t (annotateExp e1) (annotateExp e2)
  | .query qm query body initial prepared =>
    .query qm query (annotateExp body) initial (setNested globals (annotateExp body) prepared)
  | .dml e mode prepared => .dml (annotateExp e) mode prepared
  | .nextval seq prepared => .nextval (annotateExp seq) prepared
  | .setval seq count => .setval (annotateExp seq) (annotateExp count)
  | .uurlify inner t b => .uurlify (annotateExp inner) t b
def annotateOpt : Option Exp → Option Exp
  | none => none
  | some e => some (annotateExp e)
def annotateArgs : List (Exp × Typ) → List (Exp × Typ)
  | [] => []
  | (e, t) :: args => (annotateExp e, t) :: annotateArgs args
def annotateList : List Exp → List Exp
  | [] => []
  | e :: es => annotateExp e :: annotateList es
def annotateFields : List (String × Exp) → List (String × Exp)
  | [] => []
  | (x, e) :: fields => (x, annotateExp e) :: annotateFields fields
def annotateArms : List (Pat × Exp) → List (Pat × Exp)
  | [] => []
  | (p, e) :: arms => (p, annotateExp e) :: annotateArms arms
end

def FunDecl.annotate (f : FunDecl) : FunDecl := { f with e := annotateExp globals f.e }

def annotateDecl : Decl → Decl
  | .val x n t e => .val x n t (annotateExp globals e)
  | .func f => .func (f.annotate globals)
  | .funRec fs => .funRec (fs.map fun f => f.annotate globals)
  | .task task x1 x2 e => .task task x1 x2 (annotateExp globals e)
  | .other shape => .other shape

end

-- ---------------------------------------------------------------------------
-- Files
-- ---------------------------------------------------------------------------

def Globals.insert (globals : Globals) (n : Nat) (uses : List Nat) : Globals :=
  fun m => if m = n then uses else globals m

/-- A group of functions shares the ids of all its bodies. -/
def addDecl (globals : Globals) : Decl → Globals
  | .val _ n _ e => globals.insert n (expUses globals e)
  | .func f => globals.insert f.n (expUses globals f.e)
  | .funRec fs =>
    let allUses := fs.flatMap fun f => expUses globals f.e
    fs.foldl (fun globals f => globals.insert f.n allUses) globals
  | .task .. | .other _ => globals

def collectGlobals (decls : List Decl) : Globals := decls.foldl addDecl fun _ => []

def annotate (decls : List Decl) : List Decl := decls.map (annotateDecl (collectGlobals decls))

end UrWeb.Cjr
