import UrWeb.Primitives

/-!
# The Mono intermediate representation

Monomorphic types, patterns, expressions and declarations. Source spans are
left out, and so is the shared cell a datatype reference carries next to its
id: no modelled pass reads either.
-/

namespace UrWeb.Mono

inductive Typ where
  | func (dom ran : Typ)
  | record (fields : List (String × Typ))
  | datatype (n : Nat)
  | ffi (m x : String)
  | option (t : Typ)
  | list (t : Typ)
  | source
  | signal (t : Typ)
  | transaction (t : Typ)
  deriving Repr

inductive PatCon where
  | var (n : Nat)
  | ffi (module datatyp con : String) (arg : Option Typ)
  deriving Repr

inductive Pat where
  | var (x : String) (t : Typ)
  | prim (p : Prim)
  | con (dk : DatatypeKind) (pc : PatCon) (arg : Option Pat)
  | record (fields : List (String × Pat × Typ))
  | none (t : Typ)
  | some (t : Typ) (p : Pat)

inductive JavaScriptMode where
  | attribute
  | script
  | source (t : Typ)

inductive BinopIntness
  | int
  | notInt
  deriving DecidableEq, Repr

structure CaseMeta where
  disc : Typ
  result : Typ

/-- The types of a query node: the selected expressions, the tables with their
columns, and the accumulator. -/
structure QueryTypes where
  exps : List (String × Typ)
  tables : List (String × List (String × Typ))
  state : Typ

inductive Exp where
  | prim (p : Prim)
  | rel (n : Nat)
  | named (n : Nat)
  | con (dk : DatatypeKind) (pc : PatCon) (arg : Option Exp)
  | none (t : Typ)
  | some (t : Typ) (e : Exp)
  | ffi (m x : String)
  | ffiApp (m x : String) (args : List (Exp × Typ))
  | app (e1 e2 : Exp)
  | abs (x : String) (dom ran : Typ) (body : Exp)
  | unop (s : String) (e : Exp)
  | binop (bi : BinopIntness) (s : String) (e1 e2 : Exp)
  | record (xets : List (String × Exp × Typ))
  | field (e : Exp) (x : String)
  | case (disc : Exp) (arms : List (Pat × Exp)) (info : CaseMeta)
  | strcat (e1 e2 : Exp)
  | error (e : Exp) (t : Typ)
  | returnBlob (blob : Option Exp) (mimeType : Exp) (t : Typ)
  | redirect (e : Exp) (t : Typ)
  | write (e : Exp)
  | seq (e1 e2 : Exp)
  | letIn (x : String) (t : Typ) (e1 e2 : Exp)
  | closure (n : Nat) (envs : List Exp)
  /-- `body` is evaluated under two binders: the row (1) and the accumulator (0). -/
  | query (qm : QueryTypes) (query body initial : Exp)
  | dml (e : Exp) (fm : FailureMode)
  | nextval (e : Exp)
  | setval (e1 e2 : Exp)
  | uurlify (e : Exp) (t : Typ) (b : Bool)
  | javaScript (mode : JavaScriptMode) (e : Exp)
  | signalReturn (e : Exp)
  | signalBind (e1 e2 : Exp)
  | signalSource (e : Exp)
  | serverCall (e : Exp) (t : Typ) (eff : Effect) (fm : FailureMode)
  | recv (e : Exp) (t : Typ)
  | sleep (e : Exp)
  | spawn (e : Exp)

inductive Policy where
  | client (e : Exp)
  | insert (e : Exp)
  | delete (e : Exp)
  | update (e : Exp)
  | sequence (e : Exp)

def Policy.exp : Policy → Exp
  | .client e | .insert e | .delete e | .update e | .sequence e => e

inductive IndexMode
  | equality
  | trigram
  | skipped
  deriving DecidableEq, Repr

inductive Sidedness
  | serverOnly
  | serverAndPull
  | serverAndPullAndPush
  deriving DecidableEq, Repr

inductive DbMode
  | noDb
  | oneQuery
  | anyDb
  deriving DecidableEq, Repr

structure DatatypeDecl where
  name : String
  id : Nat
  constrs : List (String × Nat × Option Typ)

/-- One binding of a `val` or of a `val rec` group:
name, id, type, body and the path it is reported under. -/
structure ValBinding where
  x : String
  n : Nat
  t : Typ
  e : Exp
  s : String

inductive Decl where
  | datatype (dts : List DatatypeDecl)
  | val (vi : ValBinding)
  | valRec (vis : List ValBinding)
  | export (ek : ExportKind) (s : String) (n : Nat) (ts : List Typ) (t : Typ) (b : Bool)
  | table (s : String) (xts : List (String × Typ)) (pe ce : Exp)
  | sequence (s : String)
  | view (s : String) (xts : List (String × Typ)) (e : Exp)
  | index (s : String) (fields : List (String × IndexMode))
  | database (name : String) (expunge initial : Nat) (usesSimilar : Bool)
  | javaScript (s : String)
  | cookie (s : String)
  | style (s : String)
  | task (e1 e2 : Exp)
  | policy (p : Policy)
  | onError (n : Nat)

/-- Id, sidedness and database mode of an exported function. -/
abbrev ExportInfo := Nat × Sidedness × DbMode

abbrev File := List Decl × List ExportInfo

-- ---------------------------------------------------------------------------
-- Induction principles
-- ---------------------------------------------------------------------------

/-- Induction over a type, with the fields of a record reached by membership. -/
@[induction_eliminator]
theorem Typ.induct {P : Typ → Prop}
    (func : ∀ dom ran, P dom → P ran → P (.func dom ran))
    (record : ∀ fields : List (String × Typ), (∀ f ∈ fields, P f.2) → P (.record fields))
    (datatype : ∀ n, P (.datatype n))
    (ffi : ∀ m x, P (.ffi m x))
    (option : ∀ t, P t → P (.option t))
    (list : ∀ t, P t → P (.list t))
    (source : P .source)
    (signal : ∀ t, P t → P (.signal t))
    (transaction : ∀ t, P t → P (.transaction t)) (t : Typ) : P t :=
  @Typ.rec P (fun fields => ∀ f ∈ fields, P f.2) (fun f => P f.2)
    func record datatype ffi option list source signal transaction
    (by simp) (fun _ _ hf ih => List.forall_mem_cons.mpr ⟨hf, ih⟩) (fun _ _ h => h) t

/-- Induction over a pattern. -/
@[induction_eliminator]
theorem Pat.induct {P : Pat → Prop}
    (var : ∀ x t, P (.var x t))
    (prim : ∀ p, P (.prim p))
    (con : ∀ dk pc (arg : Option Pat), (∀ p ∈ arg, P p) → P (.con dk pc arg))
    (record : ∀ fields : List (String × Pat × Typ), (∀ f ∈ fields, P f.2.1) → P (.record fields))
    (none : ∀ t, P (.none t))
    (some : ∀ t p, P p → P (.some t p)) (p : Pat) : P p :=
  @Pat.rec P (fun arg => ∀ p ∈ arg, P p) (fun fields => ∀ f ∈ fields, P f.2.1)
    (fun f => P f.2.1) (fun f => P f.1)
    var prim con record none some
    (by simp) (by simp) (by simp) (fun _ _ hf ih => List.forall_mem_cons.mpr ⟨hf, ih⟩)
    (fun _ _ h => h) (fun _ _ h => h) p

/-- Induction over an expression: children in lists and options are reached by
membership. -/
@[induction_eliminator]
theorem Exp.induct {P : Exp → Prop}
    (prim : ∀ p, P (.prim p))
    (rel : ∀ n, P (.rel n))
    (named : ∀ n, P (.named n))
    (con : ∀ dk pc (arg : Option Exp), (∀ e ∈ arg, P e) → P (.con dk pc arg))
    (none : ∀ t, P (.none t))
    (some : ∀ t e, P e → P (.some t e))
    (ffi : ∀ m x, P (.ffi m x))
    (ffiApp : ∀ m x (args : List (Exp × Typ)), (∀ a ∈ args, P a.1) → P (.ffiApp m x args))
    (app : ∀ e1 e2, P e1 → P e2 → P (.app e1 e2))
    (abs : ∀ x dom ran body, P body → P (.abs x dom ran body))
    (unop : ∀ s e, P e → P (.unop s e))
    (binop : ∀ bi s e1 e2, P e1 → P e2 → P (.binop bi s e1 e2))
    (record : ∀ xets : List (String × Exp × Typ), (∀ f ∈ xets, P f.2.1) → P (.record xets))
    (field : ∀ e x, P e → P (.field e x))
    (case : ∀ disc (arms : List (Pat × Exp)) info, P disc → (∀ a ∈ arms, P a.2) →
      P (.case disc arms info))
    (strcat : ∀ e1 e2, P e1 → P e2 → P (.strcat e1 e2))
    (error : ∀ e t, P e → P (.error e t))
    (returnBlob : ∀ (blob : Option Exp) mimeType t, (∀ e ∈ blob, P e) → P mimeType →
      P (.returnBlob blob mimeType t))
    (redirect : ∀ e t, P e → P (.redirect e t))
    (write : ∀ e, P e → P (.write e))
    (seq : ∀ e1 e2, P e1 → P e2 → P (.seq e1 e2))
    (letIn : ∀ x t e1 e2, P e1 → P e2 → P (.letIn x t e1 e2))
    (closure : ∀ n (envs : List Exp), (∀ e ∈ envs, P e) → P (.closure n envs))
    (query : ∀ qm query body initial, P query → P body → P initial →
      P (.query qm query body initial))
    (dml : ∀ e fm, P e → P (.dml e fm))
    (nextval : ∀ e, P e → P (.nextval e))
    (setval : ∀ e1 e2, P e1 → P e2 → P (.setval e1 e2))
    (uurlify : ∀ e t b, P e → P (.uurlify e t b))
    (javaScript : ∀ mode e, P e → P (.javaScript mode e))
    (signalReturn : ∀ e, P e → P (.signalReturn e))
    (signalBind : ∀ e1 e2, P e1 → P e2 → P (.signalBind e1 e2))
    (signalSource : ∀ e, P e → P (.signalSource e))
    (serverCall : ∀ e t eff fm, P e → P (.serverCall e t eff fm))
    (recv : ∀ e t, P e → P (.recv e t))
    (sleep : ∀ e, P e → P (.sleep e))
    (spawn : ∀ e, P e → P (.spawn e)) (e : Exp) : P e :=
  @Exp.rec P (fun arg => ∀ e ∈ arg, P e) (fun args => ∀ a ∈ args, P a.1)
    (fun xets => ∀ f ∈ xets, P f.2.1) (fun arms => ∀ a ∈ arms, P a.2) (fun es => ∀ e ∈ es, P e)
    (fun a => P a.1) (fun f => P f.2.1) (fun a => P a.2)
    prim rel named con none some ffi ffiApp app abs unop binop record field case strcat error
    returnBlob redirect write seq letIn closure query dml nextval setval uurlify javaScript
    signalReturn signalBind signalSource serverCall recv sleep spawn
    (by simp) (by simp)
    (by simp) (fun _ _ ha ih => List.forall_mem_cons.mpr ⟨ha, ih⟩)
    (by simp) (fun _ _ hf ih => List.forall_mem_cons.mpr ⟨hf, ih⟩)
    (by simp) (fun _ _ ha ih => List.forall_mem_cons.mpr ⟨ha, ih⟩)
    (by simp) (fun _ _ he ih => List.forall_mem_cons.mpr ⟨he, ih⟩)
    (fun _ _ h => h) (fun _ _ h => h) (fun _ _ h => h) e

end UrWeb.Mono
