import UrWeb.Mono.Syntax

/-!
# The C-like intermediate representation

Types, patterns and expressions one step before C. Records are numbered
structs. Source spans are left out, and so is the shared cell a datatype
carries next to its id: it holds the constructors the environment lists.
-/

namespace UrWeb.Cjr

inductive Typ where
  | func (dom ran : Typ)
  /-- An index into the table of structs; 0 is the empty record. -/
  | record (i : Nat)
  | datatype (k : DatatypeKind) (n : Nat)
  | ffi (m x : String)
  | option (t : Typ)
  | list (t : Typ) (i : Nat)
  deriving DecidableEq

inductive PatCon where
  | var (n : Nat)
  | ffi (module datatyp con : String) (arg : Option Typ)

inductive Pat where
  | var (x : String) (t : Typ)
  | prim (p : Prim)
  | con (dk : DatatypeKind) (pc : PatCon) (arg : Option Pat)
  | record (fields : List (String × Pat × Typ))
  | none (t : Typ)
  | some (t : Typ) (p : Pat)

structure CaseMeta where
  disc : Typ
  result : Typ

/-- What a query node holds besides its expressions: the selected expressions, the
tables with their columns, the struct of a row and the type of the accumulator. -/
structure QueryTypes where
  exps : List (String × Typ)
  tables : List (String × List (String × Typ))
  rnum : Nat
  state : Typ

structure PreparedQuery where
  id : Nat
  query : String
  nested : Bool

structure PreparedDml where
  id : Nat
  dml : String

structure PreparedNextval where
  id : Nat
  query : String

inductive Exp where
  | prim (p : Prim)
  | rel (n : Nat)
  | named (n : Nat)
  | con (dk : DatatypeKind) (pc : PatCon) (arg : Option Exp)
  | none (t : Typ)
  | some (t : Typ) (e : Exp)
  | ffi (m x : String)
  | ffiApp (m x : String) (args : List (Exp × Typ))
  | app (e : Exp) (args : List Exp)
  | unop (s : String) (e : Exp)
  | binop (s : String) (e1 e2 : Exp)
  | record (i : Nat) (xes : List (String × Exp))
  | field (e : Exp) (x : String)
  | case (disc : Exp) (arms : List (Pat × Exp)) (info : CaseMeta)
  | error (e : Exp) (t : Typ)
  | returnBlob (blob : Option Exp) (mimeType : Exp) (t : Typ)
  | redirect (e : Exp) (t : Typ)
  | write (e : Exp)
  | seq (e1 e2 : Exp)
  | letIn (x : String) (t : Typ) (e1 e2 : Exp)
  | query (qm : QueryTypes) (query body initial : Exp) (prepared : Option PreparedQuery)
  | dml (e : Exp) (mode : FailureMode) (prepared : Option PreparedDml)
  | nextval (seq : Exp) (prepared : Option PreparedNextval)
  | setval (seq count : Exp)
  | uurlify (e : Exp) (t : Typ) (fromClient : Bool)

end UrWeb.Cjr
